import Offside.Proofs.LineStarts
import Offside.Proofs.Spelling

/-!
# Proofs/Division — nothing of a text is lost

A text without faults is divided into blanks, comments and the texts of its tokens, each where it
stands (`Divides`).  Each step of a scan takes one such part off the text (`divides_step`), so the
tokens of a scan divide the whole of it (`divides_scan`), and what their places say of the text can
be read off the division (`scan_lossless`).
-/

namespace Offside

open List Position

/-! ## Places in order -/

namespace Position

variable {q p r : Position}

/-- Comes before in the text. -/
instance : LT Position := ⟨fun p q => p.line < q.line ∨ p.line = q.line ∧ p.column < q.column⟩

/-- Comes before in the text, or is the same place. -/
instance : LE Position := ⟨fun p q => p.line < q.line ∨ p.line = q.line ∧ p.column ≤ q.column⟩

theorem lt_iff : p < q ↔ p.line < q.line ∨ p.line = q.line ∧ p.column < q.column := Iff.rfl

theorem le_iff : p ≤ q ↔ p.line < q.line ∨ p.line = q.line ∧ p.column ≤ q.column := Iff.rfl

theorem le_refl (p : Position) : p ≤ p := .inr ⟨rfl, Nat.le_refl _⟩

theorem le_trans (h : p ≤ q) (h' : q ≤ r) : p ≤ r := by
  rw [le_iff] at h h' ⊢
  omega

theorem lt_of_lt_of_le (h : p < q) (h' : q ≤ r) : p < r := by
  rw [le_iff] at h'
  rw [lt_iff] at h ⊢
  omega

theorem le_of_lt (h : p < q) : p ≤ q := h.imp_right fun h => ⟨h.1, Nat.le_of_lt h.2⟩

theorem not_lt_of_le (h : p ≤ q) : ¬q < p := by
  rw [le_iff] at h
  rw [lt_iff]
  omega

theorem lt_next (p : Position) (c : Char) : p < p.next c := by
  unfold next
  split
  · exact .inl (Nat.lt_succ_self _)
  · exact .inr ⟨rfl, Nat.lt_succ_self _⟩

theorem le_after : ∀ (p : Position) (text : List Char), p ≤ p.after text
  | p, [] => le_refl p
  | p, c :: text => le_trans (le_of_lt (p.lt_next c)) (le_after (p.next c) text)

theorem lt_after {text} (p : Position) (h : text ≠ []) : p < p.after text := by
  obtain ⟨c, text, rfl⟩ := exists_cons_of_ne_nil h
  exact lt_of_lt_of_le (p.lt_next c) (le_after _ text)

end Position

/-! ## Tokens in a text -/

namespace Token

variable {c : Char} {kind : Kind} {text word : List Char} {t : Token}

/-- The place behind the text of a token. -/
def finish (t : Token) : Position := t.position.right t.lexeme.toList.length

/-- The text of a token goes over this place. -/
def Covers (t : Token) (p : Position) : Prop := t.position ≤ p ∧ p < t.finish

/-- The text of a token of this kind as it is read: a no-break space in a name is a space. -/
def reading (kind : Kind) (word : List Char) : List Char :=
  if kind = .identifier then word.map plainJoiner else word

theorem reading_of_ne (h : kind ≠ .identifier) (word : List Char) :
    reading kind word = word := if_neg h

/-- The token is read from this text. -/
def ReadFrom (t : Token) (word : List Char) : Prop := t.lexeme.toList = reading t.kind word

theorem ReadFrom.length_eq (h : t.ReadFrom word) : t.lexeme.toList.length = word.length := by
  rw [h, reading]
  split
  · exact length_map _
  · rfl

/-- A token that has a text of its own. -/
def textual? (t : Token) : Option Token := if t.kind ∈ Scan.layoutKinds then none else some t

/-- The tokens that have a text of their own. -/
def textual (tokens : List Token) : List Token := tokens.filterMap textual?

/-- The characters that separate tokens. -/
def blanks : List Char := [' ', '\t', '\r', '\u00a0', '\n']

/-- **How a text that begins at a place is divided into tokens**: between their texts there are only
blanks and comments, and a comment goes to the end of its line. -/
inductive Divides : Position → List Char → List Token → Prop
  | done {p} : Divides p [] []
  | blank {p c text tokens} (hc : c ∈ blanks) (h : Divides (p.next c) text tokens) :
    Divides p (c :: text) tokens
  | comment {p body text tokens} (hbody : '\n' ∉ body)
    (hend : text = [] ∨ ∃ later, text = '\n' :: later)
    (h : Divides (p.after ('#' :: body)) text tokens) : Divides p ('#' :: body ++ text) tokens
  | token {t word text tokens} (hne : word ≠ []) (hline : '\n' ∉ word) (hword : t.ReadFrom word)
    (h : Divides (t.position.after word) text tokens) :
    Divides t.position (word ++ text) (t :: tokens)

namespace Divides

variable {p : Position} {before : List Char} {tokens : List Token}

/-- The text of a token ends where the division goes on. -/
theorem finish_eq (hline : '\n' ∉ word) (hword : t.ReadFrom word) :
    t.finish = t.position.after word := by
  rw [finish, hword.length_eq, after_eq_right _ _ hline]

theorem le_position (h : Divides p text tokens) : ∀ t ∈ tokens, p ≤ t.position := by
  induction h with
  | done => exact forall_mem_nil _
  | blank _ _ ih =>
    exact fun t ht => le_trans (le_of_lt (lt_next _ _)) (ih t ht)
  | comment _ _ _ ih => exact fun t ht => le_trans (le_after _ _) (ih t ht)
  | token _ _ _ _ ih =>
    exact forall_mem_cons.mpr ⟨le_refl _, fun t ht => le_trans (le_after _ _) (ih t ht)⟩

/-- What comes before a text is not covered by its tokens. -/
theorem not_covers {q} (h : Divides p text tokens) (hq : q < p) : ∀ t ∈ tokens, ¬t.Covers q :=
  fun t ht hcovers => not_lt_of_le hcovers.1 (lt_of_lt_of_le hq (h.le_position t ht))

/-- **Tokens are in order and do not overlap.** -/
theorem pairwise (h : Divides p text tokens) :
    tokens.Pairwise fun t u => t.position < u.position ∧ t.finish ≤ u.position := by
  induction h with
  | done => exact .nil
  | blank _ _ ih | comment _ _ _ ih => exact ih
  | @token t word _ _ hne hline hword h ih =>
    refine .cons (fun u hu => ?_) ih
    have hle := h.le_position u hu
    exact ⟨lt_of_lt_of_le (lt_after _ hne) hle, finish_eq hline hword ▸ hle⟩

/-- **The text goes on with that of a token where the token is.** -/
theorem exists_word (h : Divides p text tokens) : ∀ t ∈ tokens, ∃ before word after,
    text = before ++ word ++ after ∧ p.after before = t.position ∧ word ≠ [] ∧ t.ReadFrom word := by
  induction h with
  | done => exact forall_mem_nil _
  | @blank p c _ _ _ _ ih =>
    intro t ht
    obtain ⟨before, word, after, rfl, hplace, hword⟩ := ih t ht
    exact ⟨c :: before, word, after, rfl, hplace, hword⟩
  | @comment p body _ _ _ _ _ ih =>
    intro t ht
    obtain ⟨before, word, after, rfl, hplace, hword⟩ := ih t ht
    refine ⟨'#' :: body ++ before, word, after, by simp only [append_assoc], ?_, hword⟩
    rw [after_append, hplace]
  | @token t word text _ hne _ hword _ ih =>
    refine forall_mem_cons.mpr ⟨⟨[], word, text, rfl, rfl, hne, hword⟩, fun u hu => ?_⟩
    obtain ⟨before, word', after, rfl, hplace, hword'⟩ := ih u hu
    refine ⟨word ++ before, word', after, by simp only [append_assoc], ?_, hword'⟩
    simp [hplace]

/-- The character behind `before` is in a comment, which begins outside of tokens. -/
def InComment (p : Position) (text : List Char) (tokens : List Token) (before : List Char) : Prop :=
  ∃ head body rest, text = head ++ '#' :: body ++ rest ∧ '\n' ∉ body ∧
    (rest = [] ∨ ∃ later, rest = '\n' :: later) ∧
    head.length ≤ before.length ∧ before.length ≤ head.length + body.length ∧
    ∀ t ∈ tokens, ¬t.Covers (p.after head)

/-- What is in a comment of a later part of the text is so in all of it. -/
theorem InComment.prepend (part : List Char) {earlier}
    (hearlier : ∀ t ∈ earlier, t.finish ≤ p.after part)
    (h : InComment (p.after part) text tokens before) :
    InComment p (part ++ text) (earlier ++ tokens) (part ++ before) := by
  obtain ⟨head, body, rest, rfl, hbody, hrest, hhead, hbefore, hfree⟩ := h
  refine ⟨part ++ head, body, rest, by simp only [append_assoc], hbody, hrest, ?_, ?_, ?_⟩
  · simp only [length_append]
    omega
  · simp only [length_append]
    omega
  · rw [after_append]
    refine forall_mem_append.mpr ⟨fun t ht hcovers => ?_, hfree⟩
    exact not_lt_of_le (le_trans (hearlier t ht) (le_after _ head)) hcovers.2

/-- A split of two parts is in the first or in the second. -/
theorem split_cases {part after} (h : part ++ text = before ++ c :: after) :
    before.length < part.length ∨
      ∃ before', before = part ++ before' ∧ text = before' ++ c :: after := by
  rcases append_eq_append_iff.mp h with ⟨before', rfl, htext⟩ | ⟨part', rfl, hpart⟩
  · exact .inr ⟨before', rfl, htext⟩
  · cases part' with
    | nil => exact .inr ⟨[], (append_nil _).symm.trans (append_nil _).symm, hpart.symm⟩
    | cons d part' => exact .inl (by simp)

/-- **What no token covers is a blank or in a comment.** -/
theorem blank_or_inComment (h : Divides p text tokens) : ∀ {before after c},
    text = before ++ c :: after → (∀ t ∈ tokens, ¬t.Covers (p.after before)) →
      c ∈ blanks ∨ InComment p text tokens before := by
  induction h with
  | done =>
    intro before after c htext
    exact absurd htext.symm (append_ne_nil_of_right_ne_nil before (cons_ne_nil _ _))
  | @blank p d text tokens hd _ ih =>
    intro before after c htext hfree
    cases before with
    | nil => exact .inl ((cons.inj htext).1 ▸ hd)
    | cons e before =>
      cases htext
      exact (ih rfl hfree).imp_right (InComment.prepend [d] (forall_mem_nil _))
  | @comment p body rest tokens hbody hend h ih =>
    intro before after c htext hfree
    rcases split_cases htext with hshort | ⟨before', rfl, hlater⟩
    · refine .inr ⟨[], body, rest, rfl, hbody, hend, Nat.zero_le _, ?_, ?_⟩
      · simp only [length_cons, length_nil] at hshort ⊢
        omega
      · exact h.not_covers (lt_after _ (cons_ne_nil _ _))
    · rw [after_append] at hfree
      exact (ih hlater hfree).imp_right (InComment.prepend _ (forall_mem_nil _))
  | @token t word rest tokens hne hline hword h ih =>
    intro before after c htext hfree
    have hfinish := finish_eq hline hword
    rcases split_cases htext with hshort | ⟨before', rfl, hlater⟩
    · -- The place lies in the text of the token, which covers it.
      have hbefore : '\n' ∉ before := by
        intro hmem
        have hlead : before <+: word :=
          prefix_of_prefix_length_le ⟨_, htext.symm⟩ ⟨rest, rfl⟩ (Nat.le_of_lt hshort)
        exact hline (hlead.subset hmem)
      refine absurd ⟨le_after _ _, ?_⟩ (hfree t mem_cons_self)
      rw [hfinish, after_eq_right _ _ hline, after_eq_right _ _ hbefore]
      exact .inr ⟨rfl, Nat.add_lt_add_left hshort _⟩
    · rw [after_append] at hfree
      refine (ih hlater fun u hu => hfree u (mem_cons_of_mem _ hu)).imp_right ?_
      refine InComment.prepend word (forall_mem_singleton.mpr ?_)
      rw [hfinish]
      exact le_refl _

/-! ## Parts of a text -/

theorem append_blanks : ∀ {part p}, (∀ c ∈ part, c ∈ blanks) →
    Divides (p.after part) text tokens → Divides p (part ++ text) tokens
  | [], _, _, h => h
  | _ :: _, _, hpart, h =>
    have hblank := forall_mem_cons.mp hpart
    .blank hblank.1 (append_blanks hblank.2 h)

/-- A comment goes to the end of its line. -/
theorem append_comment (h : Divides (p.after ('#' :: Cut.toLineEnd text))
    (text.drop (Cut.toLineEnd text).length) tokens) : Divides p ('#' :: text) tokens := by
  have hbody : '\n' ∉ Cut.toLineEnd text := (.takeWhile (by decide) : Cut.Leads _ text).2
  have hsplit : '#' :: Cut.toLineEnd text ++ text.drop (Cut.toLineEnd text).length = '#' :: text :=
    congrArg ('#' :: ·) (prefix_iff_eq_append.mp (List.takeWhile_prefix _))
  rw [← hsplit]
  refine .comment hbody ?_ h
  rcases Scan.toLineEnd_cases text with htext | ⟨later, htext⟩
  · exact .inl (by rw [← htext, drop_length])
  · refine .inr ⟨later, ?_⟩
    exact (congrArg (drop (Cut.toLineEnd text).length) htext).trans drop_left

theorem append_emptyLine {line} (hline : Scan.emptyLine? text = some line)
    (h : Divides (p.after line) (text.drop line.length) tokens) : Divides p text tokens := by
  unfold Scan.emptyLine? at hline
  split at hline
  · cases hline
    exact h
  · cases hline
    exact .blank (by decide) h
  · cases hline
    exact .blank (by decide) (.blank (by decide) h)
  · next text =>
    cases hline
    refine append_comment ?_
    rcases Scan.toLineEnd_cases text with htext | ⟨later, htext⟩
    · rw [← htext, drop_length] at h ⊢
      rw [take_nil, append_nil, drop_length] at h
      exact h
    · have hdrop : text.drop (Cut.toLineEnd text).length = '\n' :: later :=
        (congrArg (drop (Cut.toLineEnd text).length) htext).trans drop_left
      have hwhole : '#' :: text = ('#' :: Cut.toLineEnd text ++ ['\n']) ++ later := by
        rw [append_assoc, cons_append]
        exact congrArg ('#' :: ·) htext
      have hlater : ('#' :: text).drop ('#' :: Cut.toLineEnd text ++ ['\n']).length = later := by
        rw [hwhole, drop_left]
      rw [hdrop] at h ⊢
      change Divides (p.after ('#' :: Cut.toLineEnd text ++ ['\n']))
        (('#' :: text).drop ('#' :: Cut.toLineEnd text ++ ['\n']).length) tokens at h
      rw [hlater, after_append] at h
      exact .blank (by decide) h
  · cases hline

end Divides

/-! ## Pieces without a fault -/

theorem mem_blanks_of_isSpacing (h : isSpacing c = true) : c ∈ blanks := by
  simp only [isSpacing, Bool.or_eq_true, beq_iff_eq] at h
  rcases h with ((rfl | rfl) | rfl) | rfl <;> decide

theorem number_clean (h : (Cut.number text).faults = []) : ∃ literal,
    (Cut.number text).piece = .token .number (Cut.number text).taken literal := by
  unfold Cut.number at h ⊢
  dsimp only at h ⊢
  split at h
  · cases h
  · next hpart =>
    rw [eq_false_of_ne_true hpart, Bool.false_and]
    exact ⟨_, rfl⟩

theorem quoted_clean (h : (Cut.quoted text).faults = []) : ∃ literal,
    (Cut.quoted text).piece = .token .text (Cut.quoted text).taken literal := by
  unfold Cut.quoted at h ⊢
  dsimp only at h ⊢
  split at h
  · next hclosed =>
    rw [if_pos hclosed]
    exact ⟨_, rfl⟩
  · exact absurd h (append_ne_nil_of_right_ne_nil _ (cons_ne_nil _ _))

theorem name_reading (text : List Char) : ∃ kind literal,
    (Cut.name text).piece = .token kind (reading kind (Cut.name text).taken) literal := by
  unfold Cut.name
  dsimp only
  split
  · next kind literal hreserved =>
    have hkind : kind ≠ .identifier := by
      rintro rfl
      exact reserved?_ne_identifier hreserved
    exact ⟨kind, literal, by rw [reading_of_ne hkind]⟩
  · exact ⟨.identifier, none, rfl⟩

theorem symbol_reading {found} (h : Cut.symbol c text = some found) :
    ∃ kind literal, found.piece = .token kind (reading kind found.taken) literal := by
  obtain ⟨kind, ⟨hsymbol, rfl⟩ | ⟨d, later, rfl, hpair, rfl⟩⟩ := Cut.symbol_cases h
  · have hkind : kind ≠ .identifier := fun he => symbol?_ne_identifier c (he ▸ hsymbol)
    exact ⟨kind, none, by rw [reading_of_ne hkind]; rfl⟩
  · have hkind : kind ≠ .identifier := fun he => pair?_ne_identifier c d (he ▸ hpair)
    exact ⟨kind, none, by rw [reading_of_ne hkind]; rfl⟩

/-- **A piece without a fault** is a blank, a comment or a token that is read from all of it. -/
theorem cut_clean (hc : c ≠ '\n') (h : (cut c text).faults = []) : ((cut c text).piece = .skipped ∧
      (c ∈ blanks ∧ (cut c text).taken = [c] ∨
        c = '#' ∧ (cut c text).taken = '#' :: Cut.toLineEnd text)) ∨
    ∃ kind literal, (cut c text).piece = .token kind (reading kind (cut c text).taken) literal := by
  unfold cut at h ⊢
  split
  · next hspacing => exact .inl ⟨rfl, .inl ⟨mem_blanks_of_isSpacing hspacing, rfl⟩⟩
  split
  · next hbreak => exact absurd (eq_of_beq hbreak) hc
  split
  · next hhash => exact .inl ⟨rfl, .inr ⟨eq_of_beq hhash, by rw [eq_of_beq hhash]⟩⟩
  next hspacing hbreak hhash =>
  rw [if_neg hspacing, if_neg hbreak, if_neg hhash] at h
  split at h
  · next hquote =>
    rw [if_pos hquote]
    obtain ⟨literal, hpiece⟩ := quoted_clean h
    exact .inr ⟨.text, literal, hpiece⟩
  next hquote =>
  rw [if_neg hquote]
  split at h
  · next hdigit =>
    rw [if_pos hdigit]
    obtain ⟨literal, hpiece⟩ := number_clean h
    exact .inr ⟨.number, literal, hpiece⟩
  next hdigit =>
  rw [if_neg hdigit]
  split at h
  · next found hfound => exact .inr (symbol_reading hfound)
  split at h
  · next hletter =>
    rw [if_pos hletter]
    exact .inr (name_reading _)
  · cases h

namespace Scan

variable {s : Scan}

/-! ## Scans without a fault -/

theorem reportAll_eq_nil {faults} (h : (s.reportAll faults).faults = []) :
    s.faults = [] ∧ faults = [] := by
  have hparts := append_eq_nil_iff.mp h
  exact ⟨hparts.2, map_eq_nil_iff.mp (reverse_eq_nil_iff.mp hparts.1)⟩

/-- A fault stays. -/
theorem Writes.eq_nil {P s'} (hw : Writes P s s') (h : s'.faults = []) : s.faults = [] := by
  induction hw with
  | same _ _ _ hfaults => rwa [← hfaults]
  | trans _ _ ih ih' => exact ih (ih' h)
  | faults => exact (append_eq_nil_iff.mp h).2
  | opener | closer | lineBreak | indent | dedents | piece => exact h

theorem takePiece_eq_nil (hrest : s.rest = c :: text) (hc : c ≠ '\n')
    (h : s.takePiece.faults = []) : s.faults = [] ∧ (cut c text).faults = [] := by
  rw [takePiece, hrest] at h
  dsimp only at h
  split at h
  · exact reportAll_eq_nil h
  · next hpiece => exact absurd hpiece (onLine_cut hc text).piece_ne
  · exact reportAll_eq_nil ((writes_trackBrackets (P := fun _ => True) trivial _).eq_nil h)

theorem complete_eq_nil (h : s.complete.faults = []) : s.faults = [] :=
  (writes_complete (P := fun _ => True) fun _ _ => ⟨trivial, trivial⟩).1.eq_nil h

theorem textual_takePiece_skipped (hrest : s.rest = c :: text)
    (hpiece : (cut c text).piece = .skipped) : textual s.takePiece.tokens = textual s.tokens := by
  rw [takePiece, hrest]
  dsimp only
  rw [hpiece]
  rfl

theorem textual_takePiece_token {lexeme literal} (hrest : s.rest = c :: text)
    (hpiece : (cut c text).piece = .token kind lexeme literal) : textual s.takePiece.tokens
      = ⟨kind, String.ofList lexeme, literal, s.position⟩ :: textual s.tokens := by
  have htokens : ((s.reportAll (cut c text).faults).trackBrackets kind s.position).tokens
      = s.tokens := trackBrackets_frame Scan.tokens (fun _ _ _ => rfl) _ _ _
  rw [takePiece, hrest, ← htokens]
  dsimp only
  rw [hpiece]
  exact filterMap_cons_some (if_neg (cut_notMem_layoutKinds hpiece))

theorem divides_takePiece (hrest : s.rest = c :: text)
    (hc : c ≠ '\n') (h : (cut c text).faults = []) : ∃ added,
      textual s.takePiece.tokens = added.reverse ++ textual s.tokens ∧
      ∀ later, Divides s.takePiece.position s.takePiece.rest later →
        Divides s.position s.rest (added ++ later) := by
  have honLine := onLine_cut hc text
  have htakes := takes_piece hc hrest
  rcases cut_clean hc h with ⟨hpiece, hskipped⟩ | ⟨kind, literal, hpiece⟩
  · refine ⟨[], textual_takePiece_skipped hrest hpiece, fun later hlater => ?_⟩
    rw [htakes.position] at hlater
    rcases hskipped with ⟨hblank, htaken⟩ | ⟨rfl, htaken⟩
    · rw [htakes.rest]
      rw [htaken] at hlater ⊢
      exact .blank hblank hlater
    · have hdrop : s.takePiece.rest = text.drop (Cut.toLineEnd text).length := by
        rw [takePiece_frame Scan.rest (fun _ _ _ _ => rfl) hc hrest, htaken, move, hrest]
        rfl
      rw [htaken, hdrop] at hlater
      rw [hrest]
      exact Divides.append_comment hlater
  · refine ⟨[_], textual_takePiece_token hrest hpiece, fun later hlater => ?_⟩
    rw [htakes.position] at hlater
    rw [htakes.rest]
    exact Divides.token (t := ⟨kind, _, literal, s.position⟩) honLine.taken_ne_nil honLine.leads.2
      String.toList_ofList hlater

theorem mem_blanks_of_isMargin (h : isMargin c = true) : c ∈ blanks := by
  simp only [isMargin, Bool.or_eq_true, beq_iff_eq] at h
  rcases h with rfl | rfl <;> decide

theorem textual?_layout (t : Token) (h : t.kind ∈ layoutKinds) : textual? t = none := if_pos h

/-- **A step without a fault takes a part off the text** that is divided into the tokens it adds. -/
theorem divides_step (hrest : s.rest ≠ []) (h : s.step.faults = []) : ∃ added,
    textual s.step.tokens = added.reverse ++ textual s.tokens ∧
    ∀ later, Divides s.step.position s.step.rest later →
      Divides s.position s.rest (added ++ later) := by
  have hblank : ∀ c ∈ s.rest.takeWhile isMargin, c ∈ blanks :=
    fun c hc => mem_blanks_of_isMargin (mem_takeWhile_imp hc)
  rcases step_cases hrest with ⟨-, line, hline, hstep⟩ | ⟨-, -, hstep⟩ | ⟨-, text, hbreak, hstep⟩ |
    ⟨-, c, text, hc, hrest, hstep⟩ <;> rw [hstep] at h ⊢
  · refine ⟨[], rfl, fun later hlater => ?_⟩
    have hmargin : s.rest.takeWhile isMargin ++ s.rest.drop (s.rest.takeWhile isMargin).length
      = s.rest := prefix_iff_eq_append.mp (List.takeWhile_prefix _)
    have hdivides : Divides (s.position.after (s.rest.takeWhile isMargin))
        (s.rest.drop (s.rest.takeWhile isMargin).length) later := by
      refine Divides.append_emptyLine hline ?_
      rw [drop_drop, ← length_append, ← after_append]
      exact hlater
    exact hmargin ▸ Divides.append_blanks hblank hdivides
  · refine ⟨[], filterMap_leaveMargin textual?_layout s _, fun later hlater => ?_⟩
    have htakes := takes_leaveMargin s
    rw [htakes.position] at hlater
    exact htakes.rest ▸ Divides.append_blanks hblank hlater
  · refine ⟨[], filterMap_breakLine textual?_layout (s.move ['\n']) _, fun later hlater => ?_⟩
    have htakes := takes_newline hbreak s.position
    rw [htakes.position] at hlater
    exact htakes.rest ▸ .blank (by decide) hlater
  · exact divides_takePiece hrest hc (takePiece_eq_nil hrest hc h).2

theorem divides_complete (h : s.complete.faults = []) : ∃ added,
    textual s.complete.tokens = added.reverse ++ textual s.tokens ∧
      Divides s.position s.rest added := by
  induction s using induction_steps with
  | done s hrest =>
    rw [complete_of_rest_eq_nil hrest, hrest]
    exact ⟨[], rfl, .done⟩
  | step s hrest ih =>
    rw [← complete_step hrest] at h ⊢
    obtain ⟨later, hlater, hdivides⟩ := ih h
    obtain ⟨added, hadded, hpart⟩ := divides_step hrest (complete_eq_nil h)
    refine ⟨added ++ later, ?_, hpart later hdivides⟩
    rw [hlater, hadded, reverse_append, append_assoc]

theorem finish_eq_nil (h : s.finish.faults = []) : s.faults = [] := by
  have hopen : s.reportOpen.faults = [] := by
    unfold finish at h
    dsimp only at h
    split at h
    · exact h
    · exact h
  exact (append_eq_nil_iff.mp hopen).2

end Scan

/-- **The tokens of a text without faults divide all of it.** -/
theorem divides_scan (h : (scan text).faults = []) :
    Divides .start text (textual (scan text).tokens) := by
  rw [scan_eq] at h ⊢
  have hclean := Scan.finish_eq_nil (reverse_eq_nil_iff.mp h)
  obtain ⟨added, hadded, hdivides⟩ := Scan.divides_complete hclean
  have hwords : textual (Scan.start text).complete.finish.toScanned.tokens = added := by
    have hfinish := Scan.filterMap_finish Scan.textual?_layout (Scan.start text).complete
    refine filterMap_reverse.trans (reverse_eq_iff.mpr ?_)
    exact hfinish.trans (hadded.trans (append_nil _))
  rw [hwords]
  exact hdivides

/-- **Scanning loses nothing.**  The tokens of a text without faults are in order and do not
overlap, the text where a token is goes on with what the token is read from, and what no token
covers is a blank or in a comment. -/
theorem scan_lossless (text : List Char) (h : (scan text).faults = []) :
    ((textual (scan text).tokens).Pairwise fun t u =>
      t.position < u.position ∧ t.finish ≤ u.position) ∧
    (∀ t ∈ textual (scan text).tokens, ∃ before word after, text = before ++ word ++ after ∧
      start.after before = t.position ∧ word ≠ [] ∧ t.ReadFrom word) ∧
    ∀ before c after, text = before ++ c :: after →
      (∀ t ∈ textual (scan text).tokens, ¬t.Covers (start.after before)) →
        c ∈ blanks ∨ Divides.InComment .start text (textual (scan text).tokens) before := by
  have hdivides := divides_scan h
  exact ⟨hdivides.pairwise, hdivides.exists_word, fun _ _ _ => hdivides.blank_or_inComment⟩

/-- A name with a no-break space, a number with an exponent, a block, and a comment beside a quoted
text that has its mark in it. -/
def spacedSource : String := "if a\u00a0b?\n\tf(1.5e-3, '#)') # it's\n"

theorem lossless_spacedSource : (scan spacedSource.toList).faults = [] ∧
    (textual (scan spacedSource.toList).tokens).map (fun t => (t.lexeme, t.position.column)) =
      [("if a b?", 0), ("f", 1), ("(", 2), ("1.5e-3", 3), (",", 9), ("'#)'", 11), (")", 15)] ∧
    (textual (scan spacedSource.toList).tokens).Pairwise fun t u =>
      t.position < u.position ∧ t.finish ≤ u.position := by
  have hclean : (scan spacedSource.toList).faults = [] := by decide +kernel
  exact ⟨hclean, by decide +kernel, (scan_lossless spacedSource.toList hclean).1⟩

end Token

end Offside
