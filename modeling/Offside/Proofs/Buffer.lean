import Offside.Proofs.Reading

/-!
# Proofs/Buffer — tokens by their index

A cursor can be kept as a list of all tokens and the index of the one to be read next, where reading
by an index may fail.  It never does: the list ends in an end of input, which is not passed, so each
index stays inside (`InBounds.step`).  Every step of a cursor is a step of such a buffer
(`Shows.step`).  With what `Proofs/Reading` says of the rounds over statements, reading any list of
tokens comes to its end inside its buffer (`reading_ends`).
-/

namespace Offside

open List

variable (tokens : List Token)

/-- All tokens of a program, the index of the one to be read next, the index of the one taken last
and whether a soft line break was stepped over behind it. -/
structure Buffer where
  tokens : List Token
  current : Nat
  previous : Option Nat
  softBreak : Bool

namespace Buffer

/-- The token to be read next, if its index is one. -/
def peek? (b : Buffer) : Option Token := b.tokens[b.current]?

/-- The kind of the token taken last, if there is one; fails if its index is none. -/
def previousKind? (b : Buffer) : Option (Option Token.Kind) :=
  match b.previous with
  | none => some none
  | some i => (b.tokens[i]?).map fun t => some t.kind

/-- Steps over soft line breaks. -/
def skipSoft (b : Buffer) : Buffer :=
  let breaks := (b.tokens.drop b.current).takeWhile (·.kind = .softNewline)
  { b with current := b.current + breaks.length, softBreak := !breaks.isEmpty }

/-- Takes a token, if there is one; the end of input is not passed. -/
def advance? (b : Buffer) : Option Buffer :=
  b.peek?.map fun t =>
    let b' := if t.kind = .eof then b else { b with current := b.current + 1 }.skipSoft
    { b' with previous := some b.current }

/-- Tells a leading word apart in its place. -/
def splitLeadingWord (b : Buffer) : Buffer :=
  match b.peek? with
  | none => b
  | some t => { b with
      tokens := b.tokens.take b.current ++ Cursor.leadingWord t ++ b.tokens.drop (b.current + 1) }

/-- The tokens, with an end of input behind them if they do not end in one. -/
def closed (tokens : List Token) : List Token :=
  match tokens.getLast? with
  | none => [⟨.eof, "", none, .start⟩]
  | some t => if t.kind = .eof then tokens else tokens ++ [⟨.eof, "", none, t.position⟩]

/-- The buffer before the first token. -/
def ofTokens (tokens : List Token) : Buffer := skipSoft ⟨closed tokens, 0, none, false⟩

/-- A step of a buffer. -/
inductive Step : Buffer → Buffer → Prop
  | advance {b b'} (h : b.advance? = some b') : Step b b'
  | split (b : Buffer) : Step b b.splitLeadingWord

/-- Some steps lead from one buffer to the other. -/
abbrev Reaches : Buffer → Buffer → Prop := Relation.ReflTransGen Step

/-! ## Bounds -/

/-- The last of some tokens is an end of input. -/
def EndsInEof (tokens : List Token) : Prop :=
  ∃ final, tokens.getLast? = some final ∧ final.kind = .eof

/-- The indices are those of tokens, and the last token is an end of input. -/
structure InBounds (b : Buffer) : Prop where
  current : b.current < b.tokens.length
  previous : ∀ i ∈ b.previous, i < b.tokens.length
  last : EndsInEof b.tokens

variable {b b' : Buffer}

theorem endsInEof_closed : EndsInEof (closed tokens) := by
  unfold closed
  split
  · exact ⟨_, rfl, rfl⟩
  · next t ht =>
    split
    · next heof => exact ⟨t, ht, heof⟩
    · exact ⟨_, getLast?_concat .., rfl⟩

/-- Soft line breaks end before the end of input. -/
theorem current_skipSoft_lt (h : b.current < b.tokens.length) (hlast : EndsInEof b.tokens) :
    b.skipSoft.current < b.tokens.length := by
  obtain ⟨final, hfinal, heof⟩ := hlast
  obtain ⟨before, htokens⟩ := getLast?_eq_some_iff.mp hfinal
  have hle : b.current ≤ before.length := by
    rw [htokens, length_append, length_singleton] at h
    omega
  have hbreaks : ((b.tokens.drop b.current).takeWhile (·.kind = .softNewline)).length
      ≤ (before.drop b.current).length := by
    rw [htokens, drop_append_of_le_length hle, takeWhile_append]
    split
    · rw [takeWhile_cons_of_neg (by simp [heof]), append_nil]
    · exact (takeWhile_sublist _).length_le
  rw [length_drop] at hbreaks
  unfold skipSoft
  dsimp only
  rw [htokens] at hbreaks ⊢
  rw [length_append, length_singleton]
  omega

theorem inBounds_ofTokens : (ofTokens tokens).InBounds := by
  have hlast := endsInEof_closed tokens
  refine ⟨current_skipSoft_lt ?_ hlast, nofun, hlast⟩
  obtain ⟨final, hfinal, -⟩ := hlast
  exact length_pos_of_mem (mem_of_getLast? hfinal)

/-- **In bounds, a token can be read and taken.** -/
theorem InBounds.exists_advance? (h : b.InBounds) :
    ∃ t b', b.peek? = some t ∧ b.advance? = some b' :=
  ⟨_, _, getElem?_eq_getElem h.current, congrArg _ (getElem?_eq_getElem h.current)⟩

theorem InBounds.advance? (h : b.InBounds) (hadvance : b.advance? = some b') : b'.InBounds := by
  obtain ⟨t, ht, rfl⟩ := Option.map_eq_some_iff.mp hadvance
  dsimp only
  split
  · exact ⟨h.current, fun i hi => Option.some.inj hi ▸ h.current, h.last⟩
  · next hkind =>
    have hnext : b.current + 1 < b.tokens.length := by
      obtain ⟨final, hfinal, heof⟩ := h.last
      refine Nat.lt_of_le_of_ne h.current fun heq => hkind ?_
      have ht : b.tokens[b.current]? = some t := ht
      rw [getLast?_eq_getElem?, ← heq, Nat.add_sub_cancel, ht] at hfinal
      rwa [Option.some.inj hfinal]
    exact ⟨current_skipSoft_lt (b := { b with current := b.current + 1 }) hnext h.last,
      fun i hi => Option.some.inj hi ▸ h.current, h.last⟩

/-- The token to be read next, with the tokens before and behind it. -/
theorem tokens_eq_of_peek? {t} (h : b.peek? = some t) :
    b.tokens = b.tokens.take b.current ++ t :: b.tokens.drop (b.current + 1) := by
  obtain ⟨hlt, hget⟩ := List.getElem?_eq_some_iff.mp h
  rw [← hget, List.getElem_cons_drop, List.take_append_drop]

theorem InBounds.splitLeadingWord (h : b.InBounds) : b.splitLeadingWord.InBounds := by
  unfold Buffer.splitLeadingWord
  split
  · exact h
  · next t ht =>
    have hsplit := tokens_eq_of_peek? ht
    obtain ⟨first, more, hfirst⟩ := Cursor.exists_leadingWord t
    have hlength : b.tokens.length ≤ (b.tokens.take b.current ++ Cursor.leadingWord t
        ++ b.tokens.drop (b.current + 1)).length := by
      have := congrArg length hsplit
      rw [hfirst]
      simp only [length_append, length_cons] at this ⊢
      omega
    refine ⟨Nat.lt_of_lt_of_le h.current hlength,
      fun i hi => Nat.lt_of_lt_of_le (h.previous i hi) hlength, ?_⟩
    -- the end of input is behind the word, or is the word itself and stays as it is
    obtain ⟨final, hfinal, heof⟩ := h.last
    rw [hsplit, getLast?_append] at hfinal
    cases hbehind : b.tokens.drop (b.current + 1) with
    | nil =>
      rw [hbehind, getLast?_singleton, Option.some_or] at hfinal
      rw [← Option.some.inj hfinal] at heof
      rw [append_nil, Cursor.leadingWord_of_kind_ne (by rw [heof]; nofun)]
      exact ⟨t, getLast?_concat .., heof⟩
    | cons next later =>
      rw [hbehind, getLast?_cons_cons, Option.or_of_isSome (by simp)] at hfinal
      exact ⟨final, by rw [getLast?_append, hfinal, Option.some_or], heof⟩

/-- **No step leaves the bounds.** -/
theorem InBounds.step (h : b.InBounds) (hstep : Step b b') : b'.InBounds := by
  cases hstep with
  | advance hadvance => exact h.advance? hadvance
  | split => exact h.splitLeadingWord

theorem InBounds.reaches (h : b.InBounds) (hreaches : Reaches b b') : b'.InBounds := by
  induction hreaches with
  | refl => exact h
  | tail _ hstep ih => exact ih.step hstep

/-! ## Cursors as buffers -/

/-- The index of the newest token that is no soft line break, in a list with the newest first. -/
def lastIndex? : List Token → Option Nat
  | [] => none
  | t :: older => if t.kind = .softNewline then lastIndex? older else some older.length

/-- A buffer shows a cursor, with some tokens behind its end of input. -/
structure Shows (behind : List Token) (c : Cursor) (b : Buffer) : Prop where
  tokens : b.tokens = c.tokens ++ behind
  current : b.current = c.taken.length
  previous : b.previous = lastIndex? c.taken
  softBreak : b.softBreak = c.afterSoftBreak

variable {behind : List Token} {c c' : Cursor}

theorem Shows.tokens_eq (h : Shows behind c b) :
    b.tokens = c.taken.reverse ++ (c.rest ++ c.final :: behind) := by
  rw [h.tokens, Cursor.tokens, List.append_assoc, List.append_assoc]
  rfl

theorem Shows.drop_current (h : Shows behind c b) :
    b.tokens.drop b.current = c.rest ++ c.final :: behind := by
  rw [h.tokens_eq, h.current, ← length_reverse, drop_left]

/-- The token at the cursor is the one at its index. -/
theorem Shows.peek? (h : Shows behind c b) : b.peek? = some c.current := by
  unfold Buffer.peek? Cursor.current
  rw [← head?_drop, h.drop_current]
  cases c.rest <;> rfl

theorem previousKind?_lastIndex? (x : List Token) : ∀ taken : List Token,
    (match lastIndex? taken with
      | none => some none
      | some i => ((taken.reverse ++ x)[i]?).map fun t => some t.kind)
      = some ((taken.find? (·.kind ≠ .softNewline)).map (·.kind))
  | [] => rfl
  | t :: older => by
    rw [reverse_cons, append_assoc, lastIndex?]
    by_cases h : t.kind = .softNewline
    · rw [if_pos h, find?_cons_of_neg (by simpa using h)]
      exact previousKind?_lastIndex? ([t] ++ x) older
    · rw [if_neg h, find?_cons_of_pos (by simpa using h)]
      simp

/-- The token taken last is the one at its index. -/
theorem Shows.previousKind? (h : Shows behind c b) : b.previousKind? = some c.previousKind? := by
  unfold Buffer.previousKind? Cursor.previousKind?
  rw [h.previous, h.tokens_eq]
  exact previousKind?_lastIndex? _ c.taken

theorem lastIndex?_append : ∀ {breaks taken}, (∀ t ∈ breaks, t.kind = .softNewline) →
    lastIndex? (breaks ++ taken) = lastIndex? taken
  | [], _, _ => rfl
  | t :: breaks, taken, h => by
    obtain ⟨ht, hbreaks⟩ := forall_mem_cons.mp h
    rw [cons_append, lastIndex?, if_pos ht, lastIndex?_append hbreaks]

theorem skipSoft_eq (taken : List Token) (final : Token) : ∀ rest : List Token,
    Cursor.skipSoft taken final rest = ⟨(rest.takeWhile (·.kind = .softNewline)).reverse ++ taken,
      rest.dropWhile (·.kind = .softNewline), final⟩
  | [] => rfl
  | t :: rest => by
    unfold Cursor.skipSoft
    split
    · next h =>
      rw [skipSoft_eq (t :: taken) final rest, List.takeWhile_cons_of_pos (by simpa using h),
        List.dropWhile_cons_of_pos (by simpa using h), List.reverse_cons, List.append_assoc]
      rfl
    · next h =>
      rw [List.takeWhile_cons_of_neg (by simpa using h),
        List.dropWhile_cons_of_neg (by simpa using h)]
      rfl

/-- Soft line breaks are stepped over alike. -/
theorem shows_skipSoft {taken rest final} (hfinal : final.kind = .eof)
    (htokens : b.tokens = taken.reverse ++ (rest ++ final :: behind))
    (hcurrent : b.current = taken.length) (hprevious : b.previous = lastIndex? taken)
    (hbreak : ∀ t ∈ taken.head?, t.kind ≠ .softNewline) :
    Shows behind (Cursor.skipSoft taken final rest) b.skipSoft := by
  have hbreaks : (b.tokens.drop b.current).takeWhile (·.kind = .softNewline)
      = rest.takeWhile (·.kind = .softNewline) := by
    rw [htokens, hcurrent, ← List.length_reverse, List.drop_left, List.takeWhile_append]
    split
    · next hall =>
      rw [List.takeWhile_cons_of_neg (by simp [hfinal]), List.append_nil]
      exact ((List.takeWhile_prefix _).eq_of_length hall).symm
    · rfl
  have hsoft : ∀ t ∈ (rest.takeWhile (·.kind = .softNewline)).reverse, t.kind = .softNewline :=
    fun t ht => by simpa using List.mem_takeWhile_imp (List.mem_reverse.mp ht)
  rw [skipSoft_eq]
  refine ⟨?_, ?_, ?_, ?_⟩
  · rw [Buffer.skipSoft, htokens, Cursor.tokens]
    simp only [List.reverse_append, List.reverse_reverse, List.append_assoc, List.cons_append,
      List.nil_append]
    rw [← List.append_assoc (List.takeWhile _ rest), List.takeWhile_append_dropWhile]
  · rw [Buffer.skipSoft, hbreaks, hcurrent, List.length_append, List.length_reverse, Nat.add_comm]
  · rw [Buffer.skipSoft, lastIndex?_append hsoft, hprevious]
  · rw [Buffer.skipSoft, hbreaks]
    dsimp only [Cursor.afterSoftBreak]
    rcases List.eq_nil_or_concat (rest.takeWhile (·.kind = .softNewline)) with hnil | ⟨_, t, hlast⟩
    · rw [hnil]
      cases taken with
      | nil => rfl
      | cons t older => simpa using hbreak t rfl
    · have ht := hsoft t (by rw [hlast]; simp)
      rw [hlast]
      simp [ht]

theorem Shows.advance (h : Shows behind c b) (hc : c.Settled) (hrest : c.rest ≠ []) :
    ∃ b', b.advance? = some b' ∧ Shows behind c.advance b' := by
  obtain ⟨t, rest, hcons⟩ := exists_cons_of_ne_nil hrest
  have hcurrent : c.current = t := by rw [Cursor.current, hcons, headD_cons]
  have heof : t.kind ≠ .eof := hc.rest t (hcons ▸ mem_cons_self)
  have hsoft : t.kind ≠ .softNewline := hc.head t (by rw [hcons]; rfl)
  refine ⟨{ b with current := b.current + 1, previous := some b.current }.skipSoft, ?_, ?_⟩
  · rw [advance?, h.peek?, hcurrent, Option.map_some, if_neg heof]
    rfl
  rw [Cursor.advance, hcons]
  refine shows_skipSoft hc.final ?_ ?_ ?_ ?_
  · have htokens := h.tokens_eq
    rw [hcons] at htokens
    rw [reverse_cons, append_assoc]
    exact htokens
  · exact congrArg (· + 1) h.current
  · rw [lastIndex?, if_neg hsoft, ← h.current]
  · rintro _ ⟨⟩
    exact hsoft

theorem Shows.splitLeadingWord (h : Shows behind c b) (hc : c.Settled) :
    Shows behind c.splitLeadingWord b.splitLeadingWord := by
  have htake : b.tokens.take b.current = c.taken.reverse := by
    rw [h.tokens_eq, h.current, ← length_reverse, take_left]
  have hdrop : b.tokens.drop (b.current + 1) = (c.rest ++ c.final :: behind).drop 1 := by
    rw [← drop_drop, h.drop_current]
  rw [Buffer.splitLeadingWord, h.peek?]
  unfold Cursor.splitLeadingWord
  dsimp only
  rw [htake, hdrop]
  split
  · next hrest =>
    refine ⟨?_, h.current, h.previous, h.softBreak⟩
    have hcurrent : c.current = c.final := by rw [Cursor.current, hrest, headD_nil]
    rw [hcurrent, Cursor.leadingWord_of_kind_ne (by rw [hc.final]; decide), hrest, Cursor.tokens,
      hrest]
    simp
  · next t rest hrest =>
    refine ⟨?_, h.current, h.previous, h.softBreak⟩
    have hcurrent : c.current = t := by rw [Cursor.current, hrest, headD_cons]
    rw [hcurrent, hrest, Cursor.tokens]
    simp

/-- **Every step of a cursor is a step of the buffer that shows it.** -/
theorem Shows.step (h : Shows behind c b) (hc : c.Settled) (hstep : Cursor.Step c c') :
    ∃ b', Step b b' ∧ Shows behind c' b' := by
  cases hstep with
  | advance hrest =>
    obtain ⟨b', hadvance, hb'⟩ := h.advance hc hrest
    exact ⟨b', .advance hadvance, hb'⟩
  | split => exact ⟨_, .split b, h.splitLeadingWord hc⟩

theorem Shows.reaches (h : Shows behind c b) (hc : c.Settled) (hreaches : Cursor.Reaches c c') :
    ∃ b', Reaches b b' ∧ Shows behind c' b' := by
  induction hreaches with
  | refl => exact ⟨b, .refl, h⟩
  | tail hreaches hstep ih =>
    obtain ⟨b₁, hb₁, hshows⟩ := ih
    obtain ⟨b₂, hb₂, hshows⟩ := hshows.step (hc.reaches hreaches) hstep
    exact ⟨b₂, hb₁.tail hb₂, hshows⟩

/-- What stands behind the first end of input. -/
def behindOf (tokens : List Token) : List Token := ((closed tokens).dropWhile (·.kind ≠ .eof)).tail

theorem closed_eq : closed tokens
    = tokens.takeWhile (·.kind ≠ .eof) ++ Cursor.finalOf tokens :: behindOf tokens := by
  have hsplit : ∀ {before behind : List Token} {final : Token},
      (∀ t ∈ before, t.kind ≠ .eof) → final.kind = .eof →
      closed tokens = before ++ final :: behind → behindOf tokens = behind := by
    intro before behind final hbefore hfinal heq
    rw [behindOf, heq, dropWhile_append_of_pos (by simpa using hbefore),
      dropWhile_cons_of_neg (by simpa using hfinal), tail_cons]
  unfold Cursor.finalOf
  cases hfind : tokens.find? (·.kind = .eof) with
  | some final =>
    obtain ⟨hfinal, before, behind, htokens, hbefore⟩ := find?_eq_some_iff_append.mp hfind
    have hfinal : final.kind = .eof := by simpa using hfinal
    have hbefore : ∀ t ∈ before, t.kind ≠ .eof := by simpa using hbefore
    have hclosed : ∃ more, closed tokens = before ++ final :: (behind ++ more) := by
      unfold closed
      split
      · next hnil =>
        rw [getLast?_eq_none_iff.mp hnil] at htokens
        exact absurd htokens.symm (append_ne_nil_of_right_ne_nil _ (cons_ne_nil _ _))
      · split
        · exact ⟨[], by rw [append_nil]; exact htokens⟩
        · exact ⟨[_], by rw [htokens, append_assoc]; rfl⟩
    obtain ⟨more, hclosed⟩ := hclosed
    rw [hsplit hbefore hfinal hclosed, hclosed]
    dsimp only
    rw [htokens, takeWhile_append_of_pos (by simpa using hbefore),
      takeWhile_cons_of_neg (by simpa using hfinal), append_nil]
  | none =>
    have hall : ∀ t ∈ tokens, t.kind ≠ .eof := by simpa using find?_eq_none.mp hfind
    have hclosed : closed tokens
        = tokens ++ [⟨.eof, "", none, (tokens.getLast?.map (·.position)).getD .start⟩] := by
      unfold closed
      split
      · next hnil => rw [hnil, getLast?_eq_none_iff.mp hnil]; rfl
      · next t ht => rw [if_neg (hall t (mem_of_getLast? ht)), ht]; rfl
    rw [hsplit hall rfl hclosed, hclosed]
    dsimp only
    rw [takeWhile_eq_self_iff.mpr (by simpa using hall)]

theorem shows_start : Shows (behindOf tokens) (Cursor.start tokens) (ofTokens tokens) :=
  shows_skipSoft (b := ⟨closed tokens, 0, none, false⟩) (Cursor.kind_finalOf tokens)
    (closed_eq tokens) rfl rfl nofun

end Buffer

/-! ## Reading to the end -/

/-- A round comes to its end, and takes a token if it goes on. -/
def Parser.Proceeds {α : Type} (round : Parser (Option α)) (s : State) : Prop :=
  ∃ next s', round s = .ok next s' ∧ Cursor.Reaches s.cursor s'.cursor ∧
    (next.isSome → s.cursor.taken.length < s'.cursor.taken.length)

theorem Parser.Reads.proceeds {α : Type} {round : Parser (Option α)} {s : State} {a : α}
    {R : α → Cursor → Prop} {W : List Word → Option α → List Word → Prop}
    (h : Reads id (fun _ => True) False round s (Goes s R a) W) (hs : s.cursor.Settled) :
    Proceeds round s := by
  obtain ⟨next, s', hok, hreaches, -, -, hgoes, -⟩ := h.exists_ok hs s.holds_true
  refine ⟨next, s', hok, hreaches, fun hnext => ?_⟩
  cases hgoes with
  | done => cases hnext
  | on hlt _ => exact hreaches.length_lt hlt

/-- **Any tokens are read to their end, inside their buffer.**  However deep a program may nest,
from some depth on its reading ends, and behind the last token.  On the way the cursor only makes
steps, each shown by a step of the buffer; there, whatever steps are made, the token at the cursor
and the one taken last are inside, and the last token is an end of input.  And a round over
statements, which is never refused, has the cursor further on or is the last one. -/
theorem Parsed.reading_ends : (ofTokens tokens).ended = true ∧
    (∀ depth, 2 * (Cursor.start tokens).weight + 1 ≤ depth →
      ∃ statements s, (nested depth).program ⟨Cursor.start tokens, []⟩ = .ok statements s ∧
        Cursor.Reaches (Cursor.start tokens) s.cursor ∧ s.cursor.rest = []) ∧
    (∀ c, Cursor.Reaches (Cursor.start tokens) c → ∃ b, Buffer.Reaches (Buffer.ofTokens tokens) b ∧
        Buffer.Shows (Buffer.behindOf tokens) c b ∧
        b.peek? = some c.current ∧ b.previousKind? = some c.previousKind?) ∧
    (∀ b, Buffer.Reaches (Buffer.ofTokens tokens) b →
      b.InBounds ∧ ∃ t b', b.peek? = some t ∧ b.advance? = some b') ∧
    (∀ depth (s : Parser.State) earlier, Cursor.Reaches (Cursor.start tokens) s.cursor →
      2 * s.cursor.weight + 1 ≤ depth →
      Parser.Proceeds ((nested depth).programRound earlier) s ∧
      ∀ inLoop, Parser.Proceeds ((nested depth).blockRound inLoop earlier) s) := by
  have hstart := Cursor.settled_start tokens
  have hends : ∀ depth, 2 * (Cursor.start tokens).weight + 1 ≤ depth → _ := fun depth =>
    Nested.exists_program_eq_ok (s := ⟨Cursor.start tokens, []⟩) hstart
  refine ⟨?_, hends, fun c hc => ?_, fun b hb => ?_, fun depth s earlier hs hdepth => ?_⟩
  · obtain ⟨statements, s, hok, -⟩ := hends (2 * (Cursor.start tokens).weight + 2) (by omega)
    unfold ofTokens
    dsimp only
    rw [hok]
  · obtain ⟨b, hb, hshows⟩ := (Buffer.shows_start tokens).reaches hstart hc
    exact ⟨b, hb, hshows, hshows.peek?, hshows.previousKind?⟩
  · have hbounds := (Buffer.inBounds_ofTokens tokens).reaches hb
    exact ⟨hbounds, hbounds.exists_advance?⟩
  · have hsettled := hstart.reaches hs
    have hnested : Nested.ReadsBelow id (fun _ => True) s.cursor.weight (nested depth) :=
      Nested.readsBelow_nested (by omega)
    have hexpression := Nested.reads_expression_nested (g := id) (T := fun _ => True) hdepth
    have hround := Nested.reads_programRound hnested (Nat.le_refl _) hexpression earlier
    exact ⟨hround.proceeds hsettled, fun inLoop => (Nested.reads_blockRound hnested
      (Nat.le_refl _) hexpression inLoop earlier).proceeds hsettled⟩

end Offside
