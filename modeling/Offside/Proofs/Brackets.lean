import Mathlib.Data.List.Chain
import Offside.Proofs.LineStarts

/-!
# Proofs/Brackets — brackets and line breaks

The brackets of a text are those of its characters that stand outside of quoted texts and comments
(`outside`), and a scan makes each of them a token (`edges_scan`).  It keeps those that are open
beside the tokens: as long as none was refused, a line break is a soft one where a bracket is open
and ends a statement where none is (`Encloses.step`).  So the brackets of a text that are not nested
are found out, and layout keeps clear of those that are (`brackets_agree`).
-/

namespace Offside

open List Token Cut

/-- One side of a pair of brackets. -/
inductive Edge where
  | opens (pair : Bracket)
  | closes (pair : Bracket)
deriving DecidableEq, Repr

namespace Edge

variable {text : List Char} {c : Char} {kind : Kind}

/-- The character of an edge. -/
def char : Edge → Char
  | opens pair => pair.opener
  | closes pair => pair.closer

/-- Every edge. -/
def all : List Edge :=
  [opens .round, opens .square, opens .curly, closes .round, closes .square, closes .curly]

/-- The edge that a character is. -/
def ofChar? (c : Char) : Option Edge := all.find? (·.char = c)

/-- The edge that a token of this kind is. -/
def ofKind? : Kind → Option Edge
  | .opening pair => some (opens pair)
  | .closing pair => some (closes pair)
  | _ => none

/-- How much deeper one is behind an edge. -/
def rise : Edge → Int
  | opens _ => 1
  | closes _ => -1

/-- The brackets that are open behind an edge, innermost first; none if it closes one that is not
open, or not the innermost. -/
def follow (opened : List Bracket) : Edge → Option (List Bracket)
  | opens pair => some (pair :: opened)
  | closes pair =>
    match opened with
    | inner :: outer => if inner = pair then some outer else none
    | [] => none

/-- How many brackets are open behind edges. -/
def depth : List Edge → Int
  | [] => 0
  | edge :: edges => edge.rise + depth edges

/-- **Nested edges**: each pair closes behind what it opened before. -/
inductive Nests : List Edge → Prop
  | nil : Nests []
  | pair {pair inside behind} (hinside : Nests inside) (hbehind : Nests behind) :
    Nests (opens pair :: inside ++ closes pair :: behind)

theorem follow_closes {opened outer pair} :
    (closes pair).follow opened = some outer ↔ opened = pair :: outer := by
  unfold follow
  cases opened with
  | nil => exact ⟨nofun, nofun⟩
  | cons inner outer' =>
    by_cases hpair : inner = pair <;> simp [hpair]

/-- Edges that are followed change the depth by as much as they open and close. -/
theorem depth_of_foldlM : ∀ {edges opened opened'},
    edges.foldlM follow opened = some opened' → (opened.length : Int) + depth edges = opened'.length
  | [], _, _, h => by
    cases h
    simp [depth]
  | edge :: edges, opened, opened', h => by
    obtain ⟨mid, hmid, hrest⟩ := Option.bind_eq_some_iff.mp h
    have ih := depth_of_foldlM hrest
    have hstep : (mid.length : Int) = opened.length + edge.rise := by
      cases edge with
      | opens pair =>
        cases hmid
        rfl
      | closes pair =>
        obtain rfl := follow_closes.mp hmid
        simp only [rise, length_cons]
        omega
    simp only [depth]
    omega

/-- What is open outside of nested edges is open behind them. -/
theorem Nests.foldlM {edges} (h : Nests edges) (opened : List Bracket) :
    edges.foldlM follow opened = some opened := by
  induction h generalizing opened with
  | nil => rfl
  | @pair pair inside behind _ _ ihinside ihbehind =>
    have hpair : (closes pair).follow (pair :: opened) = some opened := follow_closes.mpr rfl
    rw [cons_append, foldlM_cons]
    change List.foldlM follow (pair :: opened) (inside ++ closes pair :: behind) = some opened
    rw [foldlM_append, ihinside, Option.bind_eq_bind, Option.bind_some, foldlM_cons, hpair]
    exact ihbehind opened

/-- Edges that close these brackets one after another, with nested ones between. -/
def Unwinds : List Bracket → List Edge → Prop
  | [], edges => Nests edges
  | pair :: outer, edges =>
    ∃ inside behind, edges = inside ++ closes pair :: behind ∧ Nests inside ∧ Unwinds outer behind

theorem Unwinds.pair {pair inside behind} (hinside : Nests inside) :
    ∀ {opened}, Unwinds opened behind →
      Unwinds opened (opens pair :: inside ++ closes pair :: behind)
  | [], h => Nests.pair hinside h
  | _ :: _, ⟨inside', behind', hbehind, hinside', h⟩ =>
    ⟨opens pair :: inside ++ closes pair :: inside', behind', by simp [hbehind],
      .pair hinside hinside', h⟩

/-- Edges that close all brackets unwind them. -/
theorem unwinds_of_foldlM :
    ∀ {edges opened}, edges.foldlM follow opened = some [] → Unwinds opened edges
  | [], opened, h => by
    cases h
    exact .nil
  | opens pair :: edges, opened, h => by
    have hopened : edges.foldlM follow (pair :: opened) = some [] := h
    obtain ⟨inside, behind, rfl, hinside, hbehind⟩ := unwinds_of_foldlM hopened
    exact .pair hinside hbehind
  | closes pair :: edges, opened, h => by
    obtain ⟨mid, hmid, hrest⟩ := Option.bind_eq_some_iff.mp h
    obtain rfl := follow_closes.mp hmid
    exact ⟨[], edges, rfl, .nil, unwinds_of_foldlM hrest⟩

/-- **Edges are nested if following them leaves nothing open.** -/
theorem nests_iff {edges} : Nests edges ↔ edges.foldlM follow [] = some [] :=
  ⟨fun h => h.foldlM [], unwinds_of_foldlM⟩

instance (edges : List Edge) : Decidable (Nests edges) := decidable_of_iff' _ nests_iff

/-! ## Edges in a text -/

/-- What a place in a text is part of. -/
inductive Region where
  | code | comment | quoted
  /-- A quoted text, behind a backslash. -/
  | escaped
deriving DecidableEq, Repr

/-- What the place behind a character is part of.  Comments and quoted texts end with their line. -/
def Region.next : Region → Char → Region
  | code, '#' => comment
  | code, '\'' => quoted
  | comment, '\n' => code
  | quoted, '\'' => code
  | quoted, '\n' => code
  | quoted, '\\' => escaped
  | escaped, '\n' => code
  | escaped, _ => quoted
  | region, _ => region

/-- The edges among the characters of a text that stand outside of quoted texts and comments. -/
def outside (region : Region) : List Char → List Edge
  | [] => []
  | c :: text =>
    (if region = .code then (ofChar? c).toList else []) ++ outside (region.next c) text

/-- The edges among tokens. -/
def among (tokens : List Token) : List Edge := tokens.filterMap fun t => ofKind? t.kind

/-- A character that is no edge and begins neither a comment nor a quoted text. -/
structure Plain (c : Char) : Prop where
  next : Region.next .code c = .code
  ofChar? : ofChar? c = none

/-- The characters that are not plain. -/
def marks : List Char := ['#', '\'', '(', '[', '{', ')', ']', '}']

theorem plain_of_notMem (h : c ∉ marks) : Plain c := by
  simp only [marks, mem_cons, not_mem_nil, or_false, not_or] at h
  obtain ⟨hhash, hquote, hround, hsquare, hcurly, hround', hsquare', hcurly'⟩ := h
  refine ⟨?_, ?_⟩
  · simp [Region.next, hhash, hquote]
  · simp [Edge.ofChar?, all, char, Bracket.opener, Bracket.closer, Ne.symm hround, Ne.symm hsquare,
      Ne.symm hcurly, Ne.symm hround', Ne.symm hsquare', Ne.symm hcurly']

theorem plain_of {p : Char → Bool} (hp : marks.all (!p ·) = true) (hc : p c = true) : Plain c := by
  refine plain_of_notMem fun hmem => ?_
  have := all_eq_true.mp hp c hmem
  simp [hc] at this

theorem outside_plain {part} (h : ∀ c ∈ part, Plain c) (rest : List Char) :
    outside .code (part ++ rest) = outside .code rest := by
  induction part with
  | nil => rfl
  | cons c part ih =>
    obtain ⟨hnext, hchar⟩ := h c mem_cons_self
    rw [cons_append, outside, hnext, hchar, ih fun c hc => h c (mem_cons_of_mem _ hc)]
    rfl

theorem outside_comment : ∀ text : List Char,
    outside .comment text = outside .code (text.drop (toLineEnd text).length)
  | [] => rfl
  | c :: text => by
    by_cases hc : c = '\n'
    · subst hc
      rfl
    · have hnext : Region.next .comment c = .comment := by simp [Region.next, hc]
      have hline : toLineEnd (c :: text) = c :: toLineEnd text :=
        takeWhile_cons_of_pos (by simpa using hc)
      rw [outside, hnext, hline, outside_comment text]
      rfl

/-- A quoted text is over where the scan goes on. -/
theorem outside_quoted (offset : Nat) (text : List Char) : outside .quoted text
      = outside .code (text.drop (Quoted.read offset text).taken.length) := by
  fun_induction Quoted.read offset text with
  | case1 | case2 | case3 | case4 | case5 => rfl
  | case6 offset c text hc ih =>
    have hnext : Region.next .escaped c = .quoted := by
      unfold Region.next
      split <;> simp_all
    have hquoted :
        outside .quoted ('\\' :: c :: text) = outside (Region.next .escaped c) text := rfl
    rw [hquoted, hnext, ih]
    rfl
  | case7 offset c text hquote hc hlast hbreak hback ih =>
    have hplain : c ≠ '\\' := by
      rintro rfl
      cases text with
      | nil => exact hlast rfl rfl
      | cons d text => exact hback d text rfl rfl
    have hnext : Region.next .quoted c = .quoted := by
      unfold Region.next
      split <;> simp_all
    have hquoted : outside .quoted (c :: text) = outside (Region.next .quoted c) text := rfl
    rw [hquoted, hnext, ih]
    rfl

/-- The edge that a piece of text is. -/
def ofPiece? : Piece → Option Edge
  | .token kind _ _ => ofKind? kind
  | _ => none

/-- A piece of text without a mark in it. -/
theorem outside_of_plain {found : Cut} (htaken : found.taken <+: text)
    (hplain : ∀ c ∈ found.taken, Plain c) (hpiece : ofPiece? found.piece = none) :
    outside .code text
      = (ofPiece? found.piece).toList ++ outside .code (text.drop found.taken.length) := by
  obtain ⟨rest, hrest⟩ := htaken
  rw [← hrest, outside_plain hplain, hpiece, drop_left]
  rfl

theorem plain_number : ∀ c ∈ (number text).taken, Plain c := by
  refine fun c hc => plain_of (p := isNumberChar) (by decide) ?_
  rcases mem_append.mp hc with hc | hc
  · rcases mem_append.mp hc with hc | hc
    · exact isNumberChar_of_isDigit (mem_takeWhile_imp hc)
    · exact isNumberChar_fraction c hc
  · exact isNumberChar_exponent c hc

theorem plain_isWordChar (h : isWordChar c = true) : Plain c :=
  plain_of (by decide +kernel) h

theorem plain_joinedWords : ∀ text : List Char, ∀ c ∈ joinedWords text, Plain c
  | [] => forall_mem_nil _
  | c :: text => by
    unfold joinedWords
    split
    · next hc =>
      refine forall_mem_cons.mpr ⟨?_, plain_joinedWords text⟩
      rcases Bool.or_eq_true_iff.mp hc with hword | hjoiner
      · exact plain_isWordChar hword
      · exact plain_of (p := isJoiner) (by decide) (Bool.and_eq_true_iff.mp hjoiner).1
    · exact forall_mem_nil _

theorem plain_questionMark : ∀ c ∈ questionMark text, Plain c := by
  unfold questionMark
  split
  · exact forall_mem_singleton.mpr (plain_of_notMem (by decide))
  · exact forall_mem_nil _

theorem ofKind?_reserved {word literal} (h : reserved? word = some (kind, literal)) :
    ofKind? kind = none := by
  unfold reserved? at h
  repeat' split at h
  all_goals cases h <;> rfl

theorem outside_name (hc : isWordChar c = true) :
    outside .code (c :: text) = (ofPiece? (name (c :: text)).piece).toList
      ++ outside .code ((c :: text).drop (name (c :: text)).taken.length) := by
  refine outside_of_plain (onLine_name hc).leads.1 ?_ ?_
  · unfold name
    dsimp only
    split
    · exact fun c hc => plain_isWordChar (mem_takeWhile_imp hc)
    · exact forall_mem_append.mpr ⟨plain_joinedWords _, plain_questionMark⟩
  · unfold name
    dsimp only
    split
    · next hreserved => exact ofKind?_reserved hreserved
    · rfl

/-- A symbol is an edge if its character is. -/
theorem outside_symbol? (h : symbol? c = some kind) :
    Region.next .code c = .code ∧ ofChar? c = ofKind? kind := by
  unfold symbol? at h
  split at h <;> cases h <;> decide

theorem plain_pair? {d} (h : pair? c d = some kind) : Plain c ∧ Plain d ∧ ofKind? kind = none := by
  unfold pair? at h
  split at h <;> cases h
  all_goals exact ⟨plain_of_notMem (by decide), plain_of_notMem (by decide), rfl⟩

theorem outside_symbol {found} (h : symbol c text = some found) : outside .code (c :: text)
      = (ofPiece? found.piece).toList ++ outside .code ((c :: text).drop found.taken.length) := by
  obtain ⟨kind, ⟨hkind, rfl⟩ | ⟨d, later, rfl, hpair, rfl⟩⟩ := symbol_cases h
  · obtain ⟨hnext, hedge⟩ := outside_symbol? hkind
    rw [outside, if_pos rfl, hnext, hedge]
    rfl
  · obtain ⟨hc, hd, hedge⟩ := plain_pair? hpair
    refine outside_of_plain ⟨later, rfl⟩ ?_ hedge
    exact forall_mem_cons.mpr ⟨hc, forall_mem_singleton.mpr hd⟩

theorem not_isSpacing_of_mem_marks : marks.all (!Token.isSpacing ·) = true := by decide

theorem symbol?_isSome_of_mem_marks : ∀ c ∈ marks, c = '#' ∨ c = '\'' ∨
    (symbol? c).isSome = true := by
  simp [marks, symbol?]

theorem symbol_eq_none (h : symbol c text = none) : symbol? c = none := by
  unfold symbol at h
  split at h
  · split at h
    · cases h
    · exact Option.map_eq_none_iff.mp h
  · exact Option.map_eq_none_iff.mp h

/-- **A piece of text is the edge that it begins with**, and holds no other. -/
theorem outside_cut (c : Char) (text : List Char) :
    outside .code (c :: text) = (ofPiece? (cut c text).piece).toList
      ++ outside .code ((c :: text).drop (cut c text).taken.length) := by
  unfold cut
  split
  · next hspacing =>
    refine outside_of_plain ⟨text, rfl⟩ (forall_mem_singleton.mpr ?_) rfl
    exact plain_of not_isSpacing_of_mem_marks hspacing
  split
  · next hbreak =>
    rw [eq_of_beq hbreak]
    rfl
  split
  · next hhash =>
    rw [eq_of_beq hhash]
    exact outside_comment text
  split
  · next hquote =>
    rw [eq_of_beq hquote]
    have hread := outside_quoted 1 text
    unfold quoted
    dsimp only
    split <;> exact hread
  split
  · next hdigit =>
    exact outside_of_plain (onLine_number hdigit).leads.1 plain_number rfl
  split
  · next found hfound => exact outside_symbol hfound
  split
  · next hletter => exact outside_name (by rw [isWordChar, hletter, Bool.true_or])
  · next hhash hquote _ _ hnone _ =>
    refine outside_of_plain ⟨text, rfl⟩ (forall_mem_singleton.mpr ?_) rfl
    refine plain_of_notMem fun hmem => ?_
    rcases symbol?_isSome_of_mem_marks c hmem with rfl | rfl | hsome
    · exact hhash rfl
    · exact hquote rfl
    · rw [symbol_eq_none hnone] at hsome
      cases hsome

/-! ## Edges among tokens -/

theorem among_concat (t : Token) (tokens : List Token) :
    among (t :: tokens).reverse = among tokens.reverse ++ (ofKind? t.kind).toList := by
  rw [reverse_cons, among, among, filterMap_append]
  cases hedge : ofKind? t.kind with
  | none | some edge => simp [hedge]

theorem ofKind?_layout (t : Token) (h : t.kind ∈ Scan.layoutKinds) : ofKind? t.kind = none := by
  simp only [Scan.layoutKinds, mem_cons, not_mem_nil, or_false] at h
  rcases h with h | h | h | h | h <;> rw [h] <;> rfl

theorem among_reverse_eq {tokens : List Token} {tokens' : List Token}
    (h : tokens.filterMap (fun t => ofKind? t.kind) = tokens'.filterMap fun t => ofKind? t.kind) :
    among tokens.reverse = among tokens'.reverse := by
  rw [among, among, filterMap_reverse, filterMap_reverse, h]

end Edge

/-- A bracket without its other side. -/
def LexicalFault.isUnmatched : LexicalFault → Bool
  | unmatchedCloser _ | unclosedOpener _ => true
  | _ => false

namespace Token

variable {text : List Char} {opened : List Bracket} {tokens : List Token} {t : Token}

/-- The brackets that are open behind a token.  Line breaks that end a statement, and blocks, have
to stand outside of brackets, and soft line breaks inside. -/
def enclose (opened : List Bracket) (t : Token) : Option (List Bracket) :=
  match t.kind with
  | .opening pair => (Edge.opens pair).follow opened
  | .closing pair => (Edge.closes pair).follow opened
  | .newline | .indent | .dedent => if opened = [] then some opened else none
  | .softNewline => if opened = [] then none else some opened
  | _ => some opened

/-- What is open behind a token is what its edge leaves open. -/
theorem follow_of_enclose {opened'} (h : t.enclose opened = some opened') :
    (Edge.among [t]).foldlM Edge.follow opened = some opened' := by
  have hamong : Edge.among [t] = (Edge.ofKind? t.kind).toList := Edge.among_concat t []
  have hplain : Edge.ofKind? t.kind = none → some opened = some opened' →
      (Edge.among [t]).foldlM Edge.follow opened = some opened' := by
    intro hnone hsame
    rw [hamong, hnone]
    exact hsame
  unfold enclose at h
  split at h
  · next hkind =>
    rw [hamong, hkind]
    exact (bind_pure _).trans h
  · next hkind =>
    rw [hamong, hkind]
    exact (bind_pure _).trans h
  iterate 3 · next hkind => exact hplain (by rw [hkind]; rfl) (Option.ite_none_right_eq_some.mp h).2
  · next hkind => exact hplain (by rw [hkind]; rfl) (Option.ite_none_left_eq_some.mp h).2
  · next hopening hclosing _ _ _ _ =>
    refine hplain ?_ h
    unfold Edge.ofKind?
    split
    · next hkind => exact absurd hkind (hopening _)
    · next hkind => exact absurd hkind (hclosing _)
    · rfl

theorem follow_of_enclosed : ∀ {tokens opened opened'},
    tokens.foldlM enclose opened = some opened' →
      (Edge.among tokens).foldlM Edge.follow opened = some opened'
  | [], _, _, h => h
  | t :: tokens, opened, opened', h => by
    obtain ⟨mid, hmid, hrest⟩ := Option.bind_eq_some_iff.mp h
    have hamong : Edge.among (t :: tokens) = Edge.among [t] ++ Edge.among tokens :=
      filterMap_append (l := [t])
    rw [hamong, foldlM_append, follow_of_enclose hmid]
    exact follow_of_enclosed hrest

/-- Where layout stands among tokens that keep to their brackets. -/
theorem depth_of_enclosed {front back} (h : tokens.foldlM enclose [] = some opened)
    (htokens : tokens = front ++ t :: back) :
    (t.kind ∈ [.newline, .indent, .dedent] → Edge.depth (Edge.among front) = 0) ∧
      (t.kind = .softNewline → 1 ≤ Edge.depth (Edge.among front)) := by
  rw [htokens, foldlM_append] at h
  obtain ⟨before, hbefore, h⟩ := Option.bind_eq_some_iff.mp h
  obtain ⟨behind, hbehind, -⟩ := Option.bind_eq_some_iff.mp h
  have hdepth := Edge.depth_of_foldlM (follow_of_enclosed hbefore)
  rw [length_nil] at hdepth
  constructor
  · intro hkind
    have hnone : before = [] := by
      by_contra hopen
      simp only [mem_cons, not_mem_nil, or_false] at hkind
      rcases hkind with hkind | hkind | hkind <;>
        · rw [enclose, hkind] at hbehind
          simp [hopen] at hbehind
    rw [hnone, length_nil] at hdepth
    omega
  · intro hkind
    have hsome : before ≠ [] := by
      rintro rfl
      rw [enclose, hkind] at hbehind
      cases hbehind
    have := length_pos_iff.mpr hsome
    omega

namespace Scan

variable {s : Scan} {c : Char}

/-! ## Scans -/

theorem plain_margin (h : isMargin c = true) : Edge.Plain c := Edge.plain_of (by decide) h

/-- A line without tokens has no edges. -/
theorem outside_emptyLine {line} (h : emptyLine? text = some line) :
    Edge.outside .code text = Edge.outside .code (text.drop line.length) := by
  unfold emptyLine? at h
  split at h
  · cases h
    rfl
  · cases h
    rfl
  · cases h
    rfl
  · next text =>
    cases h
    have hcomment : Edge.outside .code ('#' :: text)
        = Edge.outside .code (text.drop (toLineEnd text).length) := Edge.outside_comment text
    rw [hcomment]
    rcases toLineEnd_cases text with htext | ⟨rest, htext⟩
    · simp [← htext]
    · have hdrop : text.drop (toLineEnd text).length = '\n' :: rest :=
        (congrArg (drop (toLineEnd text).length) htext).trans drop_left
      have hline : ('#' :: text).drop ('#' :: toLineEnd text ++ ['\n']).length = rest := by
        have hwhole : '#' :: text = ('#' :: toLineEnd text ++ ['\n']) ++ rest := by
          rw [append_assoc, cons_append]
          exact congrArg ('#' :: ·) htext
        rw [hwhole, drop_left]
      have hbreak : Edge.outside .code ('\n' :: rest) = Edge.outside .code rest := rfl
      rw [hdrop, hbreak]
      exact congrArg (Edge.outside .code) hline.symm
  · cases h

/-- Opening and closing blocks adds no edge. -/
theorem among_leaveMargin (s : Scan) (margin : List Char) :
    Edge.among (s.leaveMargin margin).tokens.reverse = Edge.among s.tokens.reverse :=
  Edge.among_reverse_eq (filterMap_leaveMargin Edge.ofKind?_layout s margin)

theorem among_breakLine (s : Scan) (position : Position) :
    Edge.among (s.breakLine position).tokens.reverse = Edge.among s.tokens.reverse :=
  Edge.among_reverse_eq (filterMap_breakLine Edge.ofKind?_layout s position)

theorem among_takePiece (hrest : s.rest = c :: text) (hc : c ≠ '\n') :
    Edge.among s.takePiece.tokens.reverse
      = Edge.among s.tokens.reverse ++ (Edge.ofPiece? (cut c text).piece).toList := by
  rw [takePiece, hrest]
  dsimp only
  split
  · next hpiece =>
    rw [hpiece]
    exact (append_nil _).symm
  · next hpiece => exact absurd hpiece (onLine_cut hc text).piece_ne
  · next kind lexeme literal hpiece =>
    have htokens : ((s.reportAll (cut c text).faults).trackBrackets kind s.position).tokens
        = s.tokens := trackBrackets_frame Scan.tokens (fun _ _ _ => rfl) _ _ _
    rw [hpiece, ← htokens]
    exact Edge.among_concat _ _

/-- **A step makes the brackets that it takes off the text tokens.** -/
theorem edges_step (h : s.rest ≠ []) :
    Edge.among s.step.tokens.reverse ++ Edge.outside .code s.step.rest
      = Edge.among s.tokens.reverse ++ Edge.outside .code s.rest := by
  rcases step_cases h with ⟨-, line, hline, hstep⟩ | ⟨-, -, hstep⟩ | ⟨-, text, hrest, hstep⟩ |
    ⟨-, c, text, hc, hrest, hstep⟩
  · have hmargin := (takes_move (List.takeWhile_prefix (l := s.rest) isMargin)).rest
    have hblank : Edge.outside .code s.rest
        = Edge.outside .code (s.rest.drop (s.rest.takeWhile isMargin ++ line).length) := by
      rw [length_append, ← drop_drop, ← outside_emptyLine hline]
      refine (congrArg (Edge.outside .code) hmargin).trans ?_
      exact Edge.outside_plain (fun c hc => plain_margin (mem_takeWhile_imp hc)) _
    rw [hstep, hblank]
    rfl
  · have hmargin := (takes_leaveMargin s).rest
    rw [hstep, among_leaveMargin, congrArg (Edge.outside .code) hmargin,
      Edge.outside_plain fun c hc => plain_margin (mem_takeWhile_imp hc)]
  · have hbreak := (takes_newline hrest s.position).rest
    rw [hstep, among_breakLine, congrArg (Edge.outside .code) hbreak]
    rfl
  · have hdrop : s.takePiece.rest = s.rest.drop (cut c text).taken.length :=
      takePiece_frame Scan.rest (fun _ _ _ _ => rfl) hc hrest
    rw [hstep, among_takePiece hrest hc, hdrop, hrest, append_assoc, ← Edge.outside_cut]

theorem edges_complete (s : Scan) : Edge.among s.complete.tokens.reverse
    = Edge.among s.tokens.reverse ++ Edge.outside .code s.rest := by
  induction s using induction_steps with
  | done s h =>
    rw [complete_of_rest_eq_nil h, h]
    exact (append_nil _).symm
  | step s h ih => rw [← complete_step h, ih, edges_step h]

theorem edges_finish (s : Scan) :
    Edge.among s.finish.tokens.reverse = Edge.among s.tokens.reverse :=
  Edge.among_reverse_eq (filterMap_finish Edge.ofKind?_layout s)

/-- No bracket was refused so far. -/
def Matched (s : Scan) : Prop := ∀ fault ∈ s.faults, fault.2.isUnmatched = false

/-- As long as no bracket was refused, the tokens keep to their brackets and leave those open that
are kept. -/
def Encloses (s : Scan) : Prop :=
  Matched s → s.tokens.reverse.foldlM enclose [] = some (s.brackets.map (·.1))

theorem foldlM_enclose_concat (h : tokens.reverse.foldlM enclose [] = some opened) (t : Token) :
    (t :: tokens).reverse.foldlM enclose [] = t.enclose opened := by
  rw [reverse_cons, foldlM_append, h]
  exact bind_pure (t.enclose opened)

theorem foldlM_enclose_dedents
    (h : tokens.reverse.foldlM enclose [] = some []) (position : Position) : ∀ n : Nat,
    (replicate n (⟨.dedent, "", none, position⟩ : Token) ++ tokens).reverse.foldlM enclose []
      = some []
  | 0 => h
  | n + 1 => foldlM_enclose_concat (foldlM_enclose_dedents h position n) _

theorem matched_of_trackBrackets {kind position} (h : Matched (s.trackBrackets kind position)) :
    Matched s := by
  intro fault hfault
  refine h fault ?_
  unfold trackBrackets
  split
  · exact hfault
  · split
    · split
      · exact hfault
      · exact mem_cons_of_mem _ hfault
    · exact mem_cons_of_mem _ hfault
  · exact hfault

/-- A bracket that is not refused is kept count of. -/
theorem enclose_trackBrackets {position} (hkind : t.kind ∉ layoutKinds)
    (h : Matched (s.trackBrackets t.kind position)) : t.enclose (s.brackets.map (·.1))
      = some ((s.trackBrackets t.kind position).brackets.map (·.1)) := by
  obtain ⟨kind, lexeme, literal, place⟩ := t
  cases kind with
  | closing pair =>
    cases hbrackets : s.brackets with
    | nil =>
      simp only [trackBrackets, hbrackets] at h
      cases h _ mem_cons_self
    | cons bracket outer =>
      obtain ⟨inner, found⟩ := bracket
      by_cases hpair : inner = pair
      · simp [enclose, Edge.follow, trackBrackets, hbrackets, hpair]
      · simp only [trackBrackets, hbrackets, hpair, if_false] at h
        cases h _ mem_cons_self
  | newline => exact absurd (show Kind.newline ∈ layoutKinds by decide) hkind
  | softNewline => exact absurd (show Kind.softNewline ∈ layoutKinds by decide) hkind
  | indent => exact absurd (show Kind.indent ∈ layoutKinds by decide) hkind
  | dedent => exact absurd (show Kind.dedent ∈ layoutKinds by decide) hkind
  | _ => rfl

namespace Encloses

/-- Behind a margin, where no bracket is open, blocks may be opened and closed. -/
theorem leaveMargin (h : Encloses s) (hclosed : s.brackets = []) (margin : List Char) :
    Encloses (s.leaveMargin margin) := by
  have hpass : Encloses (s.passMargin margin) ∧ (s.passMargin margin).brackets = [] := by
    refine ⟨?_, by rw [passMargin_frame Scan.brackets fun _ _ => rfl]; exact hclosed⟩
    unfold passMargin
    dsimp only
    split
    · exact fun hmatched => h fun fault hfault => hmatched fault (mem_cons_of_mem _ hfault)
    · exact h
  obtain ⟨hpass, hclosed⟩ := hpass
  unfold Scan.leaveMargin indentTo
  split
  · intro hmatched
    have hfold := hpass hmatched
    change _ = some ((s.passMargin margin).brackets.map (·.1))
    rw [hclosed] at hfold ⊢
    exact foldlM_enclose_concat hfold _
  · have hclose : Encloses ((s.passMargin margin).closeTo margin.length) := by
      intro hmatched
      have hfold := hpass hmatched
      change _ = some ((s.passMargin margin).brackets.map (·.1))
      rw [hclosed] at hfold ⊢
      exact foldlM_enclose_dedents hfold _ _
    dsimp only
    split
    · exact fun hmatched =>
        hclose fun fault hfault => hmatched fault (mem_cons_of_mem _ hfault)
    · exact hclose

/-- A line break inside brackets is a soft one. -/
theorem breakLine (h : Encloses s) (position : Position) : Encloses (s.breakLine position) := by
  unfold Scan.breakLine
  split
  · next hempty =>
    have hclosed : s.brackets = [] := isEmpty_iff.mp hempty
    dsimp only
    split
    · intro hmatched
      have hfold := h hmatched
      change _ = some (s.brackets.map (·.1))
      rw [hclosed] at hfold ⊢
      exact foldlM_enclose_concat hfold _
    · exact h
  · next hopen =>
    split
    · intro hmatched
      refine (foldlM_enclose_concat (h hmatched) _).trans (if_neg fun hnil => hopen ?_)
      exact isEmpty_iff.mpr (map_eq_nil_iff.mp hnil)
    · exact h

theorem addToken (h : Encloses s) {kind} (hkind : kind ∉ layoutKinds) (lexeme : List Char)
    (literal : Option Literal) : Encloses (s.addToken kind lexeme literal) := by
  have htokens : (s.trackBrackets kind s.position).tokens = s.tokens :=
    trackBrackets_frame Scan.tokens (fun _ _ _ => rfl) _ _ _
  intro hmatched
  have hfold : (s.trackBrackets kind s.position).tokens.reverse.foldlM enclose []
      = some (s.brackets.map (·.1)) := by
    rw [htokens]
    exact h (matched_of_trackBrackets hmatched)
  refine (foldlM_enclose_concat hfold _).trans ?_
  exact enclose_trackBrackets (t := ⟨kind, _, _, _⟩) hkind hmatched

theorem takePiece (h : Encloses s) (hrest : s.rest = c :: text)
    (hc : c ≠ '\n') : Encloses s.takePiece := by
  have hreported : Encloses (s.reportAll (cut c text).faults) := fun hmatched =>
    h fun fault hfault => hmatched fault (mem_append_right _ hfault)
  rw [Scan.takePiece, hrest]
  dsimp only
  split
  · exact hreported
  · next hpiece => exact absurd hpiece (onLine_cut hc text).piece_ne
  · next kind lexeme literal hpiece =>
    exact addToken hreported (cut_notMem_layoutKinds hpiece) lexeme literal

/-- **A step keeps layout and brackets apart.** -/
theorem step (h : Encloses s) (hsound : Sound s) (hne : s.rest ≠ []) : Encloses s.step := by
  rcases step_cases hne with ⟨-, line, -, hstep⟩ | ⟨hmargin, -, hstep⟩ | ⟨-, text, -, hstep⟩ |
    ⟨-, c, text, hc, hrest, hstep⟩
  · rw [hstep]
    exact h
  · rw [hstep]
    exact h.leaveMargin (hsound.margin hmargin).1 _
  · rw [hstep]
    exact breakLine (s := s.move ['\n']) h _
  · rw [hstep]
    exact h.takePiece hrest hc

theorem complete (h : Encloses s) (hsound : Sound s) : Encloses s.complete := by
  induction s using induction_steps with
  | done s hrest => rwa [complete_of_rest_eq_nil hrest]
  | step s hrest ih =>
    rw [← complete_step hrest]
    exact ih (h.step hsound hrest) (hsound.step hrest)

/-- At the end of a text whose brackets were not refused none is open. -/
theorem finish (h : Encloses s) (hmatched : Matched s.finish) :
    s.finish.tokens.reverse.foldlM enclose [] = some [] := by
  have hfaults : s.finish.faults = s.reportOpen.faults := by
    unfold Scan.finish
    dsimp only
    split <;> rfl
  have hclosed : s.brackets = [] := by
    refine eq_nil_iff_forall_not_mem.mpr fun bracket hbracket => ?_
    have hmem : (bracket.2, LexicalFault.unclosedOpener bracket.1) ∈ s.finish.faults := by
      rw [hfaults]
      exact mem_append_left _ (mem_reverse.mpr (mem_map.mpr ⟨bracket, hbracket, rfl⟩))
    cases hmatched _ hmem
  have hfold : s.tokens.reverse.foldlM enclose [] = some [] := by
    have := h fun fault hfault => hmatched fault (hfaults ▸ mem_append_right _ hfault)
    rwa [hclosed] at this
  unfold Scan.finish
  dsimp only
  split
  · exact foldlM_enclose_concat (foldlM_enclose_dedents (foldlM_enclose_concat hfold _) _ _) _
  · exact foldlM_enclose_concat (foldlM_enclose_dedents hfold _ _) _

end Encloses

/-! ## Line breaks in a row -/

/-- Of two neighbours at most one is a line break of either sort. -/
def Apart (a b : Token) : Prop := ¬(a.kind = b.kind ∧ a.kind ∈ [.newline, .softNewline])

/-- No step adds a line break to one of its sort. -/
theorem grows_apart : Grows fun tokens => tokens.IsChain Apart where
  add := by
    intro t tokens hkind h
    cases tokens with
    | nil => exact .singleton t
    | cons last earlier => exact .cons_cons (fun hsame => hkind hsame.2) h
  behind := fun hne h => .cons_cons (fun hsame => hne hsame.1) h

end Scan

/-- **The brackets among the tokens of a text are those that it holds** outside of quoted texts and
comments. -/
theorem edges_scan (text : List Char) :
    Edge.among (scan text).tokens = Edge.outside .code text := by
  rw [scan_eq]
  exact (Scan.edges_finish _).trans (Scan.edges_complete _)

/-- The tokens of a text whose brackets are not refused keep to them. -/
theorem enclosed_scan (h : ∀ fault ∈ (scan text).faults, fault.2.isUnmatched = false) :
    (scan text).tokens.foldlM enclose [] = some [] := by
  have hstart : Scan.Encloses (.start text) := fun _ => rfl
  rw [scan_eq] at h ⊢
  refine (hstart.complete (Scan.sound_start text)).finish fun fault hfault => ?_
  exact h fault (mem_reverse.mpr hfault)

theorem isChain_scan (text : List Char) : (scan text).tokens.IsChain Scan.Apart := by
  rw [← reverse_reverse (scan text).tokens]
  refine isChain_reverse.mpr ((Scan.grows_apart.scan .nil text).imp fun a b hab hsame => ?_)
  exact hab ⟨hsame.1.symm, hsame.1 ▸ hsame.2⟩

/-- **Layout and brackets agree.**  In a text without faults the brackets are nested, statements end
and blocks begin and end outside of them, soft line breaks stand inside, and no two line breaks of
one sort are neighbours.  A text whose brackets are not nested has a fault that says so. -/
theorem brackets_agree (text : List Char) : ((scan text).faults = [] →
      Edge.Nests (Edge.among (scan text).tokens) ∧
      (∀ front t back, (scan text).tokens = front ++ t :: back →
        (t.kind ∈ [.newline, .indent, .dedent] → Edge.depth (Edge.among front) = 0) ∧
        (t.kind = .softNewline → 1 ≤ Edge.depth (Edge.among front))) ∧
      (scan text).tokens.IsChain fun a b =>
        ¬(a.kind = b.kind ∧ a.kind ∈ [.newline, .softNewline])) ∧
    (¬Edge.Nests (Edge.outside .code text) →
      ∃ fault ∈ (scan text).faults, fault.2.isUnmatched = true) := by
  constructor
  · intro hclean
    have henclosed : (scan text).tokens.foldlM enclose [] = some [] :=
      enclosed_scan fun fault hfault => by rw [hclean] at hfault; cases hfault
    exact ⟨Edge.nests_iff.mpr (follow_of_enclosed henclosed),
      fun front t back => depth_of_enclosed henclosed, isChain_scan text⟩
  · intro hloose
    by_contra hnone
    refine hloose (edges_scan text ▸ Edge.nests_iff.mpr (follow_of_enclosed (enclosed_scan ?_)))
    exact fun fault hfault => eq_false_of_ne_true fun hsome => hnone ⟨fault, hfault, hsome⟩

/-- Brackets of all sorts over several lines, in a block, beside some that do not count. -/
def bracketedSource : String := "if f([1, # (\n  \x7ba: ')'\x7d\n])\n  g()\n"

theorem brackets_bracketedSource : ((scan bracketedSource.toList).faults = [] ∧
      Edge.Nests (Edge.among (scan bracketedSource.toList).tokens)) ∧
    ¬Edge.Nests (Edge.outside .code "f(a]\n".toList) ∧
      ∃ fault ∈ (scan "f(a]\n".toList).faults, fault.2.isUnmatched = true := by
  have hclean : (scan bracketedSource.toList).faults = [] := by decide +kernel
  have hloose : ¬Edge.Nests (Edge.outside .code "f(a]\n".toList) := by decide +kernel
  exact ⟨⟨hclean, ((brackets_agree bracketedSource.toList).1 hclean).1⟩, hloose,
    (brackets_agree "f(a]\n".toList).2 hloose⟩

end Token

end Offside
