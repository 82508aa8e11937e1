import Offside.Proofs.Records

/-!
# Proofs/LineStarts — how a scan stands where a line begins

At the beginning of a line a scan waits for its margin or is inside brackets, and in both cases the
newest token is the line break that would be added again (`LineStart`).  A scan of whole lines stops
at the beginning of a line (`lineStart_complete`), which is as many lines down as the text has line
breaks (`position_complete`).
-/

namespace Offside

open List

namespace Position

theorem after_line (p : Position) {text} (h : '\n' ∉ text) :
    p.after (text ++ ['\n']) = ⟨p.line + 1, 0⟩ := by
  rw [after_append, after_eq_right p text h]
  rfl

/-- A place behind a text is as many lines below as the text has breaks. -/
@[simp] theorem line_after : ∀ (p : Position) (text : List Char),
    (p.after text).line = p.line + text.count '\n'
  | _, [] => rfl
  | p, c :: text => by
    rw [after_cons, line_after (p.next c) text, count_cons, next]
    by_cases hc : c = '\n'
    · simp only [hc, if_true, beq_self_eq_true]
      omega
    · simp [hc]

end Position

namespace Token.Scan

variable {s : Scan}

/-- Everything recorded is on a line that satisfies `P`. -/
def OnLines (P : Nat → Prop) (s : Scan) : Prop :=
  Records (fun t => P t.position.line) (fun p => P p.line) s

theorem OnLines.mono {P Q} (h : OnLines P s) (hPQ : ∀ line, P line → Q line) : OnLines Q s :=
  ⟨fun t ht => hPQ _ (h.tokens t ht), fun b hb => hPQ _ (h.brackets b hb),
    fun f hf => hPQ _ (h.faults f hf)⟩

theorem admits_onLines {P : Nat → Prop} : Admits (fun t => P t.position.line) (fun p => P p.line)
    fun p => P p.line where
  layout := fun _ _ _ _ h => h
  cut := fun _ _ _ _ _ _ _ h => h
  place := fun _ h => h

/-- What holds of a scan at any time: it records nothing further down, and where it waits for a
margin no bracket is open and another line break would add nothing. -/
structure Sound (s : Scan) : Prop where
  onLines : OnLines (fun line => 1 ≤ line ∧ line ≤ s.position.line) s
  one_le : 1 ≤ s.position.line
  margin : s.atMargin = true → s.brackets = [] ∧ s.lastIsNot [.newline] = false

/-- The scan waits for a margin or is inside brackets, and another line break would add nothing. -/
def BetweenLines (s : Scan) : Prop :=
  (s.atMargin = true ∧ s.brackets = [] ∧ s.lastIsNot [.newline] = false) ∨
    (s.atMargin = false ∧ s.brackets ≠ [] ∧ s.lastIsNot [.softNewline] = false)

/-- The scan stands at the beginning of a line. -/
structure LineStart (s : Scan) : Prop where
  column : s.position.column = 0
  onLines : OnLines (fun line => 1 ≤ line ∧ line < s.position.line) s
  betweenLines : BetweenLines s

theorem sound_start (text : List Char) : Sound (start text) where
  onLines := ⟨fun _ h => absurd h not_mem_nil, fun _ h => absurd h not_mem_nil,
    fun _ h => absurd h not_mem_nil⟩
  one_le := Nat.le_refl 1
  margin := fun _ => ⟨rfl, rfl⟩

theorem lineStart_start : LineStart (start []) where
  column := rfl
  onLines := ⟨fun _ h => absurd h not_mem_nil, fun _ h => absurd h not_mem_nil,
    fun _ h => absurd h not_mem_nil⟩
  betweenLines := .inl ⟨rfl, rfl, rfl⟩

/-- Behind a line break a scan is between lines. -/
theorem betweenLines_breakLine (h : s.atMargin = false) (position : Position) :
    BetweenLines (s.breakLine position) := by
  unfold breakLine
  split
  · next hempty =>
    have hbrackets : s.brackets = [] := isEmpty_iff.mp hempty
    dsimp only
    split
    · exact .inl ⟨rfl, hbrackets, rfl⟩
    · next hlast => exact .inl ⟨rfl, hbrackets, eq_false_of_ne_true hlast⟩
  · next hopen =>
    have hbrackets : s.brackets ≠ [] := fun hnil => hopen (isEmpty_iff.mpr hnil)
    split
    · exact .inr ⟨h, hbrackets, rfl⟩
    · next hlast => exact .inr ⟨h, hbrackets, eq_false_of_ne_true hlast⟩

theorem Sound.onLines_step (h : Sound s) (hne : s.rest ≠ []) :
    OnLines (fun line => 1 ≤ line ∧ line ≤ s.position.line) s.step :=
  h.onLines.writes (admits_onLines (P := fun line => 1 ≤ line ∧ line ≤ s.position.line))
    (writes_step hne fun _ hp => ⟨hp.line_eq ▸ h.one_le, Nat.le_of_eq hp.line_eq⟩)

/-- Every step keeps a scan sound. -/
theorem Sound.step (h : Sound s) (hne : s.rest ≠ []) : Sound s.step := by
  have hline := line_le_step hne
  refine ⟨?_, Nat.le_trans h.one_le hline, fun hmargin => ?_⟩
  · exact (h.onLines_step hne).mono fun line hle => ⟨hle.1, Nat.le_trans hle.2 hline⟩
  · rcases step_cases hne with ⟨hbefore, line, -, hstep⟩ | ⟨-, -, hstep⟩ |
      ⟨hbefore, text, -, hstep⟩ | ⟨hbefore, c, text, hc, hrest, hstep⟩
    · rw [hstep]
      exact h.margin hbefore
    · rw [hstep, leaveMargin_frame Scan.atMargin fun _ _ _ _ => rfl] at hmargin
      cases hmargin
    · rw [hstep] at hmargin ⊢
      rcases betweenLines_breakLine (s := s.move ['\n']) hbefore s.position with hopen | hinside
      · exact hopen.2
      · rw [hinside.1] at hmargin
        cases hmargin
    · rw [hstep, takePiece_frame Scan.atMargin (fun _ _ _ _ => rfl) hc hrest] at hmargin
      cases hbefore.symm.trans hmargin

/-- **The step that takes the last line break of a text stops at the beginning of a line.** -/
theorem lineStart_step (h : Sound s) (hlines : WholeLines s.rest) (hne : s.rest ≠ [])
    (hend : s.step.rest = []) : LineStart s.step := by
  have hbreak := hlines.mem hne
  have hstart : s.step.position = ⟨s.position.line + 1, 0⟩ → BetweenLines s.step →
      LineStart s.step := by
    intro hposition hbetween
    refine ⟨by rw [hposition], (h.onLines_step hne).mono fun line hle => ⟨hle.1, ?_⟩, hbetween⟩
    rw [hposition]
    exact Nat.lt_succ_of_le hle.2
  -- A step that stays on its line cannot be the last one, since the text ends with a line break.
  have hstays : ∀ taken, Takes s s.step taken → '\n' ∉ taken → LineStart s.step := by
    intro taken htakes hnot
    rw [htakes.rest, hend, append_nil] at hbreak
    exact absurd hbreak hnot
  rcases step_cases hne with ⟨hbefore, line, hline, hstep⟩ | ⟨-, -, hstep⟩ |
    ⟨hbefore, text, hrest, hstep⟩ | ⟨-, c, text, hc, hrest, hstep⟩
  · have hmargin := leads_margin s
    rcases emptyLine?_cases hline with ⟨-, hnot⟩ | ⟨before, rest, rfl, -, hnot⟩
    · exact absurd (hmargin.mem_drop hbreak) hnot
    · refine hstart ?_ ?_
      · rw [hstep, ← append_assoc]
        refine Position.after_line s.position fun hmem => ?_
        exact (mem_append.mp hmem).elim hmargin.2 hnot
      · rw [hstep]
        exact .inl ⟨hbefore, h.margin hbefore⟩
  · exact hstays _ (hstep ▸ takes_leaveMargin s) (leads_margin s).2
  · refine hstart ?_ ?_
    · rw [hstep, (takes_newline hrest s.position).position]
      rfl
    · rw [hstep]
      exact betweenLines_breakLine (s := s.move ['\n']) hbefore s.position
  · exact hstays _ (hstep ▸ takes_piece hc hrest) (onLine_cut hc text).leads.2

/-- **A scan of whole lines stops at the beginning of a line.** -/
theorem lineStart_complete (h : Sound s) (hlines : WholeLines s.rest)
    (hstart : s.rest = [] → LineStart s) : LineStart s.complete := by
  induction s using induction_steps with
  | done s hrest =>
    rw [complete_of_rest_eq_nil hrest]
    exact hstart hrest
  | step s hrest ih =>
    rw [← complete_step hrest]
    exact ih (h.step hrest) (hlines.step hrest) (lineStart_step h hlines hrest)

@[simp] theorem position_complete (s : Scan) : s.complete.position = s.position.after s.rest := by
  induction s using induction_steps with
  | done s hrest => simp [complete_of_rest_eq_nil hrest, hrest]
  | step s hrest ih =>
    obtain ⟨taken, htakes, -⟩ := takes_step hrest
    rw [← complete_step hrest, ih, htakes.position, htakes.rest, Position.after_append]

end Token.Scan

end Offside
