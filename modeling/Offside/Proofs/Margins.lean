import Offside.Proofs.Concatenation

/-!
# Proofs/Margins — the faults of one text behind another

A text has no fault behind whole lines if it has none by itself, unless it is indented with another
character than they are: what indentation is made of is settled by the first line that shows it, and
holds for the lines behind (`Marked`).
-/

namespace Offside.Token

open List Scan

/-- At most one character is named. -/
def Agree (mark mark' : Option Char) : Prop := ∀ c ∈ mark, ∀ c' ∈ mark', c = c'

-- Told by the characters named, not by a search through all characters.
instance (mark mark' : Option Char) : Decidable (Agree mark mark') :=
  decidable_of_iff (mark.all fun c => mark'.all fun c' => c == c') <| by
    simp [Agree, Option.all_eq_true]

namespace Scan

variable {s s' : Scan} {mark : Option Char}

/-! ## Where a fault arises -/

/-- A line with a margin of `width` opens a block, or is on the level of an open one. -/
def Fits (levels : List Nat) (width : Nat) : Prop :=
  width > levels.headD 0 ∨ (levels.dropWhile (· > width)).headD 0 = width

theorem faults_indentTo_eq_nil (width : Nat) :
    (s.indentTo width true).faults = [] ↔ s.faults = [] ∧ Fits s.levels width := by
  unfold indentTo
  by_cases hwidth : width > s.level
  · rw [if_pos hwidth]
    exact (and_iff_left (.inl hwidth)).symm
  · rw [if_neg hwidth]
    dsimp only
    by_cases hlevel : (s.closeTo width).level = width
    · rw [if_neg (by simp [hlevel])]
      exact (and_iff_left (.inr hlevel)).symm
    · rw [if_pos (by simp [hlevel])]
      exact iff_of_false (cons_ne_nil _ _) fun h => h.2.elim hwidth hlevel

theorem faults_indentTo_of_mixed (width : Nat) : (s.indentTo width false).faults = s.faults := by
  unfold indentTo
  split <;> rfl

theorem faults_leaveMargin_eq_nil (margin : List Char) : (s.leaveMargin margin).faults = [] ↔
    s.faults = [] ∧ s.isMixed margin = false ∧ Fits s.levels margin.length := by
  have hlevels : (s.passMargin margin).levels = s.levels :=
    passMargin_frame levels (fun _ _ => rfl) s margin
  have hcount := length_faults_passMargin s margin
  unfold leaveMargin
  cases hmixed : s.isMixed margin with
  | true =>
    refine iff_of_false (fun h => ?_) (by simp)
    rw [Bool.not_true, faults_indentTo_of_mixed] at h
    rw [h, hmixed] at hcount
    cases hcount
  | false =>
    rw [hmixed, Bool.toNat_false, Nat.add_zero] at hcount
    rw [Bool.not_false, faults_indentTo_eq_nil, hlevels, ← length_eq_zero_iff, hcount,
      length_eq_zero_iff, and_iff_right rfl]

/-- A token of this kind closes no bracket, or the innermost one that is open. -/
def Suits (pairs : List Bracket) : Kind → Prop
  | .closing pair => pairs.head? = some pair
  | _ => True

theorem faults_trackBrackets_eq_nil (kind : Kind) (position : Position) :
    (s.trackBrackets kind position).faults = [] ↔
      s.faults = [] ∧ Suits (s.brackets.map (·.1)) kind := by
  unfold trackBrackets
  split
  · exact (and_iff_left trivial).symm
  · next pair =>
    cases s.brackets with
    | nil => exact iff_of_false (cons_ne_nil _ _) fun h => Option.some_ne_none pair (Eq.symm h.2)
    | cons bracket outer =>
      dsimp only
      by_cases hpair : bracket.1 = pair
      · rw [if_pos hpair]
        exact (and_iff_left (congrArg some hpair)).symm
      · rw [if_neg hpair]
        exact iff_of_false (cons_ne_nil _ _) fun h => hpair (Option.some.inj h.2)
  · next hclosing =>
    refine (and_iff_left ?_).symm
    unfold Suits
    split
    · exact absurd rfl (hclosing _)
    · trivial

theorem faults_takePiece_eq_nil {c text} (hc : c ≠ '\n') (hrest : s.rest = c :: text) :
    s.takePiece.faults = [] ↔
      s.faults = [] ∧ (cut c text).faults = [] ∧ ∀ kind lexeme literal,
        (cut c text).piece = .token kind lexeme literal → Suits (s.brackets.map (·.1)) kind := by
  have hreported : (s.reportAll (cut c text).faults).faults = [] ↔
      s.faults = [] ∧ (cut c text).faults = [] := by
    rw [reportAll, append_eq_nil_iff, reverse_eq_nil_iff, map_eq_nil_iff, and_comm]
  rw [takePiece, hrest]
  dsimp only
  split
  · next hpiece =>
    refine hreported.trans (and_congr_right fun _ => (and_iff_left fun _ _ _ htoken => ?_).symm)
    cases hpiece.symm.trans htoken
  · next hpiece => exact absurd hpiece (onLine_cut hc text).piece_ne
  · next kind lexeme literal hpiece =>
    refine (faults_trackBrackets_eq_nil kind s.position).trans ?_
    rw [hreported, and_assoc]
    refine and_congr_right fun _ => and_congr_right fun _ => ⟨fun hsuits => ?_, fun hsuits => ?_⟩
    · intro _ _ _ htoken
      cases hpiece.symm.trans htoken
      exact hsuits
    · exact hsuits kind lexeme literal hpiece

/-- A margin is not mixed behind other lines, if by itself it is not and they agree. -/
theorem isMixed_eq_false_iff (h : s'.margin = (mark <|> s.margin)) (margin : List Char) :
    s'.isMixed margin = false ∧ Agree mark s.margin ↔
      s.isMixed margin = false ∧ Agree mark (s.margin <|> marginChar? margin) := by
  unfold isMixed Agree
  rw [h]
  cases marginChar? margin with
  | none => cases mark <;> cases s.margin <;> simp
  | some c =>
    cases mark with
    | none => cases s.margin <;> simp
    | some shown =>
      cases s.margin with
      | none => simp
      | some own => simpa using fun hsame : shown = own => by rw [hsame]

/-! ## Behind lines with a margin -/

/-- The same scan behind lines without a fault, whose indentation has shown a mark. -/
structure Marked (mark : Option Char) (s s' : Scan) : Prop where
  margin : s'.margin = (mark <|> s.margin)
  faults : s'.faults = [] ↔ s.faults = [] ∧ Agree mark s.margin

namespace Marked

theorem of_clean (hmargin : s.margin = none) (hfaults : s.faults = [])
    (hmargin' : s'.margin = mark) (hfaults' : s'.faults = []) : Marked mark s s' := by
  refine ⟨?_, iff_of_true hfaults' ⟨hfaults, fun c _ c' hc' => ?_⟩⟩
  · rw [hmargin, hmargin']
    cases mark <;> rfl
  · rw [hmargin] at hc'
    cases hc'

/-- What does not depend on the margin leads to faults alike. -/
theorem of_iff {u u'} {P : Prop} (h : Marked mark s s') (hmargin : u.margin = s.margin)
    (hmargin' : u'.margin = s'.margin) (hfaults : u.faults = [] ↔ s.faults = [] ∧ P)
    (hfaults' : u'.faults = [] ↔ s'.faults = [] ∧ P) : Marked mark u u' := by
  refine ⟨by rw [hmargin, hmargin', h.margin], ?_⟩
  rw [hfaults, hfaults', h.faults, hmargin, and_right_comm]

theorem leaveMargin (h : Marked mark s s') (hlevels : s'.levels = s.levels) (margin : List Char) :
    Marked mark (s.leaveMargin margin) (s'.leaveMargin margin) := by
  have hmargin : (s.leaveMargin margin).margin = (s.margin <|> marginChar? margin) :=
    leaveMargin_frame Scan.margin (fun _ _ _ _ => rfl) s margin
  have hmargin' : (s'.leaveMargin margin).margin = (s'.margin <|> marginChar? margin) :=
    leaveMargin_frame Scan.margin (fun _ _ _ _ => rfl) s' margin
  have hmixed := isMixed_eq_false_iff h.margin margin
  refine ⟨?_, ?_⟩
  · rw [hmargin, hmargin', h.margin]
    cases mark <;> rfl
  · rw [faults_leaveMargin_eq_nil, faults_leaveMargin_eq_nil, h.faults, hlevels, hmargin]
    tauto

/-- **A step finds a fault behind other lines where it does by itself**, or where the margins
differ. -/
theorem step {base} (h : Marked mark s s') (habove : Above base s s') (hne : s.rest ≠ []) :
    Marked mark s.step s'.step := by
  have hrest := habove.rest
  rcases step_cases hne with ⟨hmargin, line, hline, hstep⟩ | ⟨hmargin, hline, hstep⟩ |
    ⟨hmargin, text, htext, hstep⟩ | ⟨hmargin, c, text, hc, htext, hstep⟩
  · rw [hstep, Scan.step, habove.atMargin, hmargin, if_pos rfl, takeMargin, hrest, hline]
    exact ⟨h.margin, h.faults⟩
  · rw [hstep, Scan.step, habove.atMargin, hmargin, if_pos rfl, takeMargin, hrest, hline]
    exact h.leaveMargin habove.levels _
  · rw [hstep, Scan.step, habove.atMargin, hmargin, if_neg Bool.false_ne_true,
      takePiece_newline (hrest.trans htext)]
    have hkept : ∀ (u : Scan) (p : Position), (u.breakLine p).margin = u.margin ∧
        (u.breakLine p).faults = u.faults := fun u p =>
      ⟨breakLine_frame Scan.margin (fun _ _ _ => rfl) u p,
        breakLine_frame Scan.faults (fun _ _ _ => rfl) u p⟩
    refine h.of_iff (P := True) (hkept _ _).1 (hkept _ _).1 ?_ ?_
    · rw [(hkept _ _).2, and_true]
      rfl
    · rw [(hkept _ _).2, and_true]
      rfl
  · rw [hstep, Scan.step, habove.atMargin, hmargin, if_neg Bool.false_ne_true]
    refine h.of_iff ?_ ?_ (faults_takePiece_eq_nil hc htext) ?_
    · rw [takePiece_frame Scan.margin (fun _ _ _ _ => rfl) hc htext]
      rfl
    · rw [takePiece_frame Scan.margin (fun _ _ _ _ => rfl) hc (hrest.trans htext)]
      rfl
    · rw [← habove.brackets]
      exact faults_takePiece_eq_nil hc (hrest.trans htext)

end Marked

end Scan

/-- The character that the indentation of a text is made of, if it shows one. -/
def indentation (text : List Char) : Option Char := (start text).complete.margin

namespace ClosedLines

variable {before line : List Char}

/-- **Behind lines that leave nothing open a text has its own faults**, and one more if its
indentation differs. -/
theorem faults_append (h : ClosedLines before)
    (hlevels : (start before).complete.levels = []) (hbefore : (scan before).faults = [])
    (after : List Char) : (scan (before ++ after)).faults = [] ↔
      (scan after).faults = [] ∧ Agree (indentation before) (indentation after) := by
  have hclean := ((faults_scan_eq_nil before).mp hbefore).1
  have hmarked : Marked (indentation before) (.start after)
      ((start before).complete.reading after) := .of_clean rfl rfl rfl hclean
  obtain ⟨habove, hmarked⟩ := Above.complete_of_step
    (fun habove hne hmarked => hmarked.step habove hne) (h.above_start hlevels after) hmarked
    (.inl h.atMargin.2)
  have hbrackets := congrArg (· = []) habove.brackets
  simp only [map_eq_nil_iff] at hbrackets
  rw [faults_scan_eq_nil, faults_scan_eq_nil, complete_append h.lines, hmarked.faults, hbrackets,
    and_right_comm]
  rfl

/-- A line that is not indented shows no margin. -/
theorem faults_append_line (h : ClosedLines before) (hbefore : (scan before).faults = [])
    (hline : Flush line) (hclean : (scan line).faults = []) (htokens : bareTokens line ≠ []) :
    (scan (before ++ line)).faults = [] ∧ indentation (before ++ line) = indentation before := by
  have hne : (start line).rest ≠ [] := hline.ne_nil
  have hne' : ((start before).complete.reading line).rest ≠ [] := hline.ne_nil
  have hclosed := ClosedLines.of_clean hline.wholeLines hclean
  have htokens := hclosed.tokens_ne_nil hline htokens
  have hnone := hline.emptyLine?_eq_none htokens
  obtain ⟨hstep, hstep'⟩ := h.step_line hline hnone
  obtain ⟨p, habove⟩ := h.above_step hline hnone
  have hmarked : Marked (indentation before) (start line).step
      ((start before).complete.reading line).step := by
    rw [hstep, hstep']
    exact .of_clean rfl rfl rfl ((faults_scan_eq_nil before).mp hbefore).1
  rw [← complete_step hne] at htokens
  obtain ⟨habove, hmarked⟩ := Above.complete_of_step
    (fun habove hne hmarked => hmarked.step habove hne) habove hmarked
    (.inr ⟨notMem_dropLast_step hne hline.single, htokens⟩)
  rw [complete_step hne, complete_step hne', ← complete_append h.lines] at habove hmarked
  have hmargin := hline.complete_start.2.1
  have hbrackets := habove.brackets
  rw [hclosed.brackets] at hbrackets
  refine ⟨(faults_scan_eq_nil _).mpr ⟨hmarked.faults.mpr ⟨?_, ?_⟩, map_eq_nil_iff.mp hbrackets⟩, ?_⟩
  · exact ((faults_scan_eq_nil line).mp hclean).1
  · rw [hmargin]
    nofun
  · rw [indentation, hmarked.margin, hmargin]
    cases indentation before <;> rfl

/-- **A text has its own faults behind a line that is not indented**, and one more if its
indentation differs from that before the line. -/
theorem faults_around (h : ClosedLines before) (hbefore : (scan before).faults = [])
    (hline : Flush line) (hclean : (scan line).faults = []) (htokens : bareTokens line ≠ [])
    (after : List Char) : (scan (before ++ line ++ after)).faults = [] ↔
      (scan after).faults = [] ∧ Agree (indentation before) (indentation after) := by
  obtain ⟨hboth, hlevels, -⟩ :=
    h.append_line hline (.of_clean hline.wholeLines hclean) htokens
  obtain ⟨hfaults, hindentation⟩ := h.faults_append_line hbefore hline hclean htokens
  rw [hboth.faults_append hlevels hfaults, hindentation]

end ClosedLines

end Offside.Token
