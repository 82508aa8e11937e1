import Offside.Proofs.Scanning

/-!
# Proofs/Records — what a scan records

A scan records tokens, open brackets, the widths of open blocks and faults.  What it can do to them
is said once (`Writes`): each step writes in these ways, on the line where it stands
(`writes_step`), and so does a whole scan (`writes_complete`, `writes_finish`).  What is recorded
then follows by induction over what is written.  What holds of all tokens and places that can be
written holds of everything that is recorded (`Records.scan`), and of every token of a text
(`forall_mem_scan`).  A line break is only added behind a token of another kind (`Grows`).
-/

namespace Offside.Token

open List Scan

variable {kind : Kind} {literal : Option Literal} {c : Char}

/-! ## The places of faults in a piece -/

theorem Cut.Quoted.fault_le (offset : Nat) (text : List Char) :
    ∀ fault ∈ (Quoted.read offset text).faults,
      fault.1 ≤ offset + (Quoted.read offset text).taken.length := by
  fun_induction Quoted.read offset text with
  | case1 | case2 | case3 | case4 | case5 => exact forall_mem_nil _
  | case6 offset c text _ ih =>
    intro fault hfault
    simp only [Quoted.behind, length_append, length_cons] at hfault ⊢
    rcases mem_append.mp hfault with hnew | hold
    · split at hnew
      · exact absurd hnew not_mem_nil
      · rw [mem_singleton.mp hnew]
        exact Nat.le_add_right _ _
    · have := ih fault hold
      omega
  | case7 offset c text _ _ _ _ _ ih =>
    intro fault hfault
    have := ih fault hfault
    simp only [Quoted.behind, length_append, length_singleton]
    omega

/-- **A fault of a piece is within the piece.** -/
theorem cut_fault_le (c : Char) (text : List Char) :
    ∀ fault ∈ (cut c text).faults, fault.1 ≤ (cut c text).taken.length := by
  unfold cut
  split
  · exact forall_mem_nil _
  split
  · exact forall_mem_nil _
  split
  · exact forall_mem_nil _
  split
  · have hread := Cut.Quoted.fault_le 1 text
    unfold Cut.quoted
    dsimp only
    split
    · simpa [Nat.add_comm] using hread
    · simpa [Nat.add_comm, or_imp, forall_and] using hread
  split
  · unfold Cut.number
    dsimp only
    split <;> simp
  split
  · next found hfound =>
    obtain ⟨kind, ⟨-, rfl⟩ | ⟨d, -, -, -, rfl⟩⟩ := Cut.symbol_cases hfound
    · exact forall_mem_nil _
    · exact forall_mem_nil _
  split
  · unfold Cut.name
    dsimp only
    split <;> exact forall_mem_nil _
  · simp

namespace Scan

/-! ## What a scan writes -/

/-- The kinds of the tokens that stand for layout. -/
def layoutKinds : List Kind := [.newline, .softNewline, .indent, .dedent, .eof]

/-- **What a scan can write**, one entry after the other, at places that satisfy `P`. -/
inductive Writes (P : Position → Prop) : Scan → Scan → Prop
  /-- What is recorded stays as it is. -/
  | same {s s' : Scan} (htokens : s'.tokens = s.tokens) (hbrackets : s'.brackets = s.brackets)
      (hlevels : s'.levels = s.levels) (hfaults : s'.faults = s.faults) : Writes P s s'
  | trans {s s' s'' : Scan} (h : Writes P s s') (h' : Writes P s' s'') : Writes P s s''
  | faults {s : Scan} {added : List (Position × LexicalFault)} (h : ∀ fault ∈ added, P fault.1) :
      Writes P s { s with faults := added ++ s.faults }
  | opener {s : Scan} {p : Position} (hp : P p) (pair : Bracket) :
      Writes P s { s with brackets := (pair, p) :: s.brackets }
  | closer {s : Scan} {bracket : Bracket × Position} {outer : List (Bracket × Position)}
      (h : s.brackets = bracket :: outer) : Writes P s { s with brackets := outer }
  /-- A line break comes behind a token of another kind. -/
  | lineBreak {s : Scan} {kind} (hkind : kind ∈ [.newline, .softNewline])
    (hlast : s.lastIsNot [kind] = true) {p : Position} (hp : P p) :
    Writes P s (s.emit kind "\n" none p)
  | indent {s : Scan} {width} (hwider : s.level < width) {p : Position} (hp : P p) :
    Writes P s ({ s with levels := width :: s.levels }.emit .indent "" none p)
  /-- As many tokens as blocks that are closed. -/
  | dedents {s : Scan} {closed levels : List Nat} (h : s.levels = closed ++ levels) {p : Position}
      (hp : P p) : Writes P s ({ s with levels }.emitDedents p closed.length)
  | piece {s : Scan} {c : Char} {text lexeme : List Char} {kind} {literal : Option Literal}
    (hpiece : (cut c text).piece = .token kind lexeme literal) {p : Position} (hp : P p) :
    Writes P s (s.emit kind (String.ofList lexeme) literal p)

variable {P : Position → Prop} {s : Scan} {position : Position}

theorem Writes.fault (hp : P position) (fault : LexicalFault) :
    Writes P s (s.report position fault) :=
  @faults P s [(position, fault)] (forall_mem_singleton.mpr hp)

theorem writes_indentTo (hp : P s.position) (width : Nat) (sound : Bool) :
    Writes P s (s.indentTo width sound) := by
  have hclosed : Writes P s (s.closeTo width) := .dedents takeWhile_append_dropWhile.symm hp
  unfold indentTo
  split
  · next hwider => exact .indent hwider hp
  · dsimp only
    split
    · exact hclosed.trans (.fault hp _)
    · exact hclosed

theorem writes_leaveMargin {margin} (hp : P (s.position.after margin))
    (hstart : P ⟨(s.position.after margin).line, 0⟩) : Writes P s (s.leaveMargin margin) := by
  have hposition : (s.passMargin margin).position = s.position.after margin :=
    passMargin_frame position (fun _ _ => rfl) s margin
  refine .trans ?_ (writes_indentTo (hposition ▸ hp) _ _)
  unfold passMargin
  dsimp only
  split
  · refine .trans ?_ (.fault hstart _)
    exact .same rfl rfl rfl rfl
  · exact .same rfl rfl rfl rfl

theorem writes_trackBrackets (hp : P position) (kind : Kind) :
    Writes P s (s.trackBrackets kind position) := by
  unfold trackBrackets
  split
  · exact .opener hp _
  · split
    · next hopen =>
      split
      · exact .closer hopen
      · exact .fault hp _
    · exact .fault hp _
  · exact .same rfl rfl rfl rfl

theorem writes_breakLine (hp : P position) : Writes P s (s.breakLine position) := by
  unfold breakLine
  split
  · dsimp only
    split
    · next hlast => exact .trans (.lineBreak (by decide) hlast hp) (.same rfl rfl rfl rfl)
    · exact .same rfl rfl rfl rfl
  · split
    · next hlast => exact .lineBreak (by decide) hlast hp
    · exact .same rfl rfl rfl rfl

/-- The places that a step comes to: those on its line in the text that is left, and the beginning
of the line. -/
def AtHand (s : Scan) (p : Position) : Prop :=
  p = ⟨s.position.line, 0⟩ ∨ ∃ taken, Cut.Leads taken s.rest ∧ p = s.position.after taken

theorem AtHand.line_eq {p} (h : s.AtHand p) : p.line = s.position.line := by
  rcases h with rfl | ⟨taken, htaken, rfl⟩
  · rfl
  · rw [Position.after_eq_right _ _ htaken.2]
    rfl

theorem atHand_position (s : Scan) : s.AtHand s.position := .inr ⟨[], .nil, rfl⟩

theorem writes_takePiece {text} (hc : c ≠ '\n') (hrest : s.rest = c :: text)
    (hP : ∀ p, s.AtHand p → P p) : Writes P s s.takePiece := by
  have honLine := onLine_cut hc text
  have hhere := hP _ s.atHand_position
  have hreported : Writes P s (s.reportAll (cut c text).faults) := by
    refine .faults fun placed hplaced => ?_
    obtain ⟨fault, hfault, rfl⟩ := mem_map.mp (mem_reverse.mp hplaced)
    refine hP _ (.inr ⟨(cut c text).taken.take fault.1, ?_, ?_⟩)
    · rw [hrest]
      exact ⟨(List.take_prefix _ _).trans honLine.leads.1,
        fun hmem => honLine.leads.2 (mem_of_mem_take hmem)⟩
    · rw [Position.after_eq_right _ _ fun hmem => honLine.leads.2 (mem_of_mem_take hmem),
        length_take, Nat.min_eq_left (cut_fault_le c text fault hfault)]
  rw [takePiece, hrest]
  dsimp only
  split
  · exact hreported.trans (.same rfl rfl rfl rfl)
  · next hbreak => exact absurd hbreak honLine.piece_ne
  · next kind lexeme literal hpiece =>
    refine hreported.trans ((writes_trackBrackets hhere kind).trans ?_)
    exact .trans (.piece hpiece hhere) (.same rfl rfl rfl rfl)

/-- **A step writes on the line where it stands.** -/
theorem writes_step (hne : s.rest ≠ []) (hP : ∀ p, s.AtHand p → P p) : Writes P s s.step := by
  rcases step_cases hne with ⟨-, line, -, hstep⟩ | ⟨-, -, hstep⟩ | ⟨-, text, -, hstep⟩ |
    ⟨-, c, text, hc, hrest, hstep⟩ <;> rw [hstep]
  · exact .same rfl rfl rfl rfl
  · have hmargin := hP _ (.inr ⟨_, leads_margin s, rfl⟩)
    refine writes_leaveMargin hmargin (hP _ (.inl ?_))
    rw [Position.after_eq_right _ _ (leads_margin s).2]
    rfl
  · refine .trans ?_ (writes_breakLine (hP _ s.atHand_position))
    exact .same rfl rfl rfl rfl
  · exact writes_takePiece hc hrest hP

/-- `P` holds of the places in the text that is left, and of the beginnings of their lines. -/
def Ahead (P : Position → Prop) (s : Scan) : Prop :=
  ∀ taken, taken <+: s.rest → P (s.position.after taken) ∧ P ⟨(s.position.after taken).line, 0⟩

theorem Ahead.atHand (h : Ahead P s) (p : Position) (hp : s.AtHand p) : P p := by
  rcases hp with rfl | ⟨taken, htaken, rfl⟩
  · exact (h [] nil_prefix).2
  · exact (h taken htaken.1).1

theorem Ahead.step (h : Ahead P s) (hrest : s.rest ≠ []) : Ahead P s.step := by
  obtain ⟨taken, htakes, -⟩ := takes_step hrest
  rintro further ⟨rest, hfurther⟩
  rw [htakes.position, ← Position.after_append]
  exact h (taken ++ further) ⟨rest, by rw [append_assoc, hfurther, htakes.rest]⟩

theorem writes_complete (h : Ahead P s) : Writes P s s.complete ∧ Ahead P s.complete := by
  induction s using induction_steps with
  | done s hrest =>
    rw [complete_of_rest_eq_nil hrest]
    exact ⟨.same rfl rfl rfl rfl, h⟩
  | step s hrest ih =>
    rw [← complete_step hrest]
    exact (ih (h.step hrest)).imp_left (writes_step hrest h.atHand).trans

theorem lastIsNot_of_cons {kinds} (h : s.lastIsNot (kind :: kinds) = true) :
    s.lastIsNot [kind] = true := by
  unfold lastIsNot at h ⊢
  split at h
  · cases h
  · simp_all

/-- At the end of a text every block is closed, and the last token is written. -/
theorem writes_finish (h : Ahead P s) : ∃ closed, Writes P s.reportOpen closed ∧
    closed.levels = [] ∧
      s.finish = { closed with brackets := [] }.emit .eof "" none s.position := by
  obtain ⟨hhere, hstart⟩ := h [] nil_prefix
  unfold finish
  dsimp only
  split
  · next hlast =>
    have hbreak : Writes P s.reportOpen (s.reportOpen.emit .newline "\n" none s.position) :=
      .lineBreak (by decide) (lastIsNot_of_cons hlast) hhere
    exact ⟨_, hbreak.trans (.dedents (append_nil _).symm hstart), rfl, rfl⟩
  · exact ⟨_, .dedents (append_nil _).symm hstart, rfl, rfl⟩

/-! ## What is recorded -/

/-- The tokens recorded so far satisfy `T`, and the places of brackets and faults satisfy `L`. -/
structure Records (T : Token → Prop) (L : Position → Prop) (s : Scan) : Prop where
  tokens : ∀ t ∈ s.tokens, T t
  brackets : ∀ bracket ∈ s.brackets, L bracket.2
  faults : ∀ fault ∈ s.faults, L fault.1

/-- What can be recorded at places that satisfy `P` satisfies `T` and `L`. -/
structure Admits (T : Token → Prop) (L P : Position → Prop) : Prop where
  layout : ∀ kind ∈ layoutKinds, ∀ lexeme position, P position → T ⟨kind, lexeme, none, position⟩
  cut : ∀ c text kind lexeme literal position, (cut c text).piece = .token kind lexeme literal →
    P position → T ⟨kind, String.ofList lexeme, literal, position⟩
  place : ∀ position, P position → L position

namespace Records

variable {T : Token → Prop} {L : Position → Prop}

theorem emit (h : Records T L s) {lexeme} (ht : T ⟨kind, lexeme, literal, position⟩) :
    Records T L (s.emit kind lexeme literal position) :=
  ⟨forall_mem_cons.mpr ⟨ht, h.tokens⟩, h.brackets, h.faults⟩

/-- **What is written at places of `P` is recorded there.** -/
theorem writes {s'} (h : Records T L s) (ha : Admits T L P) (hw : Writes P s s') :
    Records T L s' := by
  induction hw with
  | same htokens hbrackets _ hfaults =>
    exact ⟨htokens ▸ h.tokens, hbrackets ▸ h.brackets, hfaults ▸ h.faults⟩
  | trans _ _ ih ih' => exact ih' (ih h)
  | faults hadded =>
    refine ⟨h.tokens, h.brackets, forall_mem_append.mpr ⟨fun fault hfault => ?_, h.faults⟩⟩
    exact ha.place _ (hadded fault hfault)
  | opener hp => exact ⟨h.tokens, forall_mem_cons.mpr ⟨ha.place _ hp, h.brackets⟩, h.faults⟩
  | closer hopen =>
    exact ⟨h.tokens, (forall_mem_cons.mp (hopen ▸ h.brackets)).2, h.faults⟩
  | lineBreak hkind _ hp => exact h.emit (ha.layout _ (mem_append_left [_, _, _] hkind) _ _ hp)
  | indent _ hp =>
    exact ⟨forall_mem_cons.mpr ⟨ha.layout _ (by decide) _ _ hp, h.tokens⟩, h.brackets, h.faults⟩
  | dedents _ hp =>
    refine ⟨forall_mem_append.mpr ⟨fun t ht => ?_, h.tokens⟩, h.brackets, h.faults⟩
    rw [eq_of_mem_replicate ht]
    exact ha.layout _ (by decide) _ _ hp
  | piece hpiece hp => exact h.emit (ha.cut _ _ _ _ _ _ hpiece hp)

theorem finish (h : Records T L s) (ha : Admits T L P) (hahead : Ahead P s) :
    Records T L s.finish := by
  have hopen : Records T L s.reportOpen := by
    refine ⟨h.tokens, h.brackets, forall_mem_append.mpr ⟨fun fault hfault => ?_, h.faults⟩⟩
    obtain ⟨bracket, hbracket, rfl⟩ := mem_map.mp (mem_reverse.mp hfault)
    exact h.brackets bracket hbracket
  obtain ⟨closed, hwrites, -, hfinish⟩ := writes_finish hahead
  have hclosed := hopen.writes ha hwrites
  have hend : Records T L { closed with brackets := [] } :=
    ⟨hclosed.tokens, forall_mem_nil _, hclosed.faults⟩
  rw [hfinish]
  exact hend.emit (ha.layout _ (by decide) _ _ (hahead [] nil_prefix).1)

/-- **What is recorded of a text is recorded at its places.** -/
theorem scan {text} (ha : Admits T L P) (hahead : Ahead P (start text)) :
    (∀ t ∈ (scan text).tokens, T t) ∧ ∀ fault ∈ (scan text).faults, L fault.1 := by
  obtain ⟨hwrites, hend⟩ := writes_complete hahead
  have hstart : Records T L (start text) := ⟨forall_mem_nil _, forall_mem_nil _, forall_mem_nil _⟩
  have hfinish := (hstart.writes ha hwrites).finish ha hend
  rw [scan_eq]
  exact ⟨fun t ht => hfinish.tokens t (mem_reverse.mp ht),
    fun fault hfault => hfinish.faults fault (mem_reverse.mp hfault)⟩

end Records

/-! ## Tokens of layout -/

/-- What is nothing for tokens of layout is the same with and without them. -/
theorem filterMap_layout {α : Type} {f : Token → Option α}
    (hf : ∀ t : Token, t.kind ∈ layoutKinds → f t = none) {added : List Token}
    (h : ∀ t ∈ added, t.kind ∈ layoutKinds) (tokens : List Token) :
    (added ++ tokens).filterMap f = tokens.filterMap f := by
  rw [filterMap_append, filterMap_eq_nil_iff.mpr fun t ht => hf t (h t ht)]
  rfl

section

variable {α : Type} {f : Token → Option α}
  (hf : ∀ t : Token, t.kind ∈ layoutKinds → f t = none)

include hf

theorem filterMap_emitDedents (s : Scan) (position : Position) (n : Nat) :
    (s.emitDedents position n).tokens.filterMap f = s.tokens.filterMap f := by
  refine filterMap_layout hf (fun t ht => ?_) s.tokens
  rw [eq_of_mem_replicate ht]
  exact mem_of_elem_eq_true rfl

theorem filterMap_emit (s : Scan) (hkind : kind ∈ layoutKinds) (lexeme : String)
    (position : Position) :
    (s.emit kind lexeme none position).tokens.filterMap f = s.tokens.filterMap f :=
  filterMap_layout hf (forall_mem_singleton.mpr hkind) s.tokens

theorem filterMap_leaveMargin (s : Scan) (margin : List Char) :
    (s.leaveMargin margin).tokens.filterMap f = s.tokens.filterMap f := by
  have hpass : (s.passMargin margin).tokens = s.tokens :=
    passMargin_frame tokens (fun _ _ => rfl) s margin
  rw [← hpass]
  unfold leaveMargin indentTo
  split
  · exact filterMap_emit hf { s.passMargin margin with levels := _ } (by decide) _ _
  · dsimp only
    split <;> exact filterMap_emitDedents hf { s.passMargin margin with levels := _ } _ _

theorem filterMap_breakLine (s : Scan) (position : Position) :
    (s.breakLine position).tokens.filterMap f = s.tokens.filterMap f := by
  unfold breakLine
  split
  · dsimp only
    split
    · exact filterMap_emit hf { s with atMargin := true } (by decide) _ _
    · rfl
  · split
    · exact filterMap_emit hf s (by decide) _ _
    · rfl

theorem filterMap_finish (s : Scan) : s.finish.tokens.filterMap f = s.tokens.filterMap f := by
  unfold finish
  dsimp only
  refine (filterMap_emit hf _ (by decide) _ _).trans ?_
  refine (filterMap_emitDedents hf _ _ _).trans ?_
  split
  · exact filterMap_emit hf s.reportOpen (by decide) _ _
  · rfl

end

end Scan

/-- Holds of the tokens that layout adds. -/
def OfLayout (P : Token → Prop) : Prop :=
  ∀ kind ∈ layoutKinds, ∀ lexeme position, P ⟨kind, lexeme, none, position⟩

/-- Holds of the tokens that are cut off a text. -/
def OfCut (P : Token → Prop) : Prop :=
  ∀ c text kind lexeme literal position, (cut c text).piece = .token kind lexeme literal →
    P ⟨kind, String.ofList lexeme, literal, position⟩

theorem symbol?_notMem_layoutKinds (h : Cut.symbol? c = some kind) : kind ∉ layoutKinds := by
  unfold Cut.symbol? at h
  split at h <;> cases h <;> decide

theorem pair?_notMem_layoutKinds {d} (h : Cut.pair? c d = some kind) : kind ∉ layoutKinds := by
  unfold Cut.pair? at h
  split at h <;> cases h <;> decide

theorem reserved?_notMem_layoutKinds {word} (h : reserved? word = some (kind, literal)) :
    kind ∉ layoutKinds := by
  unfold reserved? at h
  repeat' split at h
  all_goals cases h <;> decide

/-- No piece of text is layout. -/
theorem cut_notMem_layoutKinds {text lexeme} (h : (cut c text).piece = .token kind lexeme literal) :
    kind ∉ layoutKinds := by
  cases yields_of_cut h with
  | text | number => decide
  | symbol hsymbol => exact symbol?_notMem_layoutKinds hsymbol
  | pair hpair => exact pair?_notMem_layoutKinds hpair
  | reserved hreserved => exact reserved?_notMem_layoutKinds hreserved
  | name => decide

/-- What holds of layout and of pieces of text holds of every token of a scan. -/
theorem forall_mem_scan {P} (hl : OfLayout P) (hc : OfCut P) (text : List Char) :
    ∀ t ∈ (scan text).tokens, P t := by
  have hadmits : Admits P (fun _ => True) fun _ => True :=
    { layout := fun kind hkind lexeme position _ => hl kind hkind lexeme position
      cut := fun c text kind lexeme literal position hpiece _ =>
        hc c text kind lexeme literal position hpiece
      place := fun _ _ => trivial }
  exact (Records.scan hadmits fun _ _ => ⟨trivial, trivial⟩).1

/-- Tokens of a kind that is not layout are cut off a text. -/
theorem forall_lexeme_of_mem_scan {P : List Char → Prop} (hkind : kind ∉ layoutKinds)
    (hc : ∀ {c text lexeme literal}, (cut c text).piece = .token kind lexeme literal → P lexeme)
    (text : List Char) : ∀ t ∈ (scan text).tokens, t.kind = kind → P t.lexeme.toList := by
  refine forall_mem_scan (P := fun t => t.kind = kind → P t.lexeme.toList) ?_ ?_ text
  · rintro layout hlayout lexeme position rfl
    exact absurd hlayout hkind
  · rintro c text cutKind lexeme literal position hpiece rfl
    rw [String.toList_ofList]
    exact hc hpiece

/-! ## Tokens in a row -/

/-- Holds of tokens, newest first, as long as a line break is only added behind a token of another
kind. -/
structure Grows (P : List Token → Prop) : Prop where
  add : ∀ {t : Token} {tokens : List Token}, t.kind ∉ [.newline, .softNewline] → P tokens →
    P (t :: tokens)
  behind : ∀ {t last : Token} {earlier : List Token}, t.kind ≠ last.kind → P (last :: earlier) →
    P (t :: last :: earlier)

namespace Grows

variable {P : List Token → Prop} {s : Scan}

/-- A line break is added only behind something else. -/
theorem cons_of_lastIsNot (hP : Grows P) {t kinds} (h : P s.tokens)
    (hlast : s.lastIsNot kinds = true) (hkind : t.kind ∈ kinds) : P (t :: s.tokens) := by
  unfold lastIsNot at hlast
  split at hlast
  · cases hlast
  · next last earlier htokens =>
    rw [htokens] at h ⊢
    refine hP.behind (fun hsame => ?_) h
    rw [hsame] at hkind
    simp [hkind] at hlast

theorem dedents (hP : Grows P) {tokens} (h : P tokens) (position : Position) :
    ∀ n : Nat, P (replicate n ⟨.dedent, "", none, position⟩ ++ tokens)
  | 0 => h
  | n + 1 => hP.add (by simp) (hP.dedents h position n)

theorem writes {Q s'} (hP : Grows P) (h : P s.tokens) (hw : s.Writes Q s') : P s'.tokens := by
  induction hw with
  | same htokens => exact htokens ▸ h
  | trans _ _ ih ih' => exact ih' (ih h)
  | faults | opener | closer => exact h
  | lineBreak _ hlast => exact hP.cons_of_lastIsNot h hlast (by simp)
  | indent => exact hP.add (by simp) h
  | dedents => exact hP.dedents h _ _
  | piece hpiece =>
    refine hP.add (fun hmem => cut_notMem_layoutKinds hpiece ?_) h
    exact mem_append_left [.indent, .dedent, .eof] hmem

/-- **What is kept as tokens are added holds of the tokens of a text.** -/
theorem scan (hP : Grows P) (h : P []) (text : List Char) : P (scan text).tokens.reverse := by
  have htrivial : Ahead (fun _ => True) (.start text) := fun _ _ => ⟨trivial, trivial⟩
  obtain ⟨hwrites, hend⟩ := writes_complete htrivial
  obtain ⟨closed, hclosed, -, hfinish⟩ := writes_finish hend
  rw [scan_eq]
  change P (start text).complete.finish.tokens.reverse.reverse
  rw [reverse_reverse, hfinish]
  have hcomplete : P (start text).complete.tokens := hP.writes h hwrites
  have hall : P closed.tokens := hP.writes (by exact hcomplete) hclosed
  exact hP.add (by simp) hall

end Grows

end Offside.Token
