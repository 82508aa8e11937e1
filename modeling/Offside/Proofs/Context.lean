import Offside.Proofs.Indentation

/-!
# Proofs/Context — cursors in a larger program

A cursor is followed from a program into a larger one, which has other tokens before it, other
places and more tokens behind (`Continues`).  As long as it stands before a token of its own it
shows the same there, and every step leads to such cursors again.

At the end of its tokens a cursor knows less of the larger program: it has just taken a line break,
or left a block (`Ended`).
-/

namespace Offside

open List Token

/-- The token without its place. -/
def Token.bare (t : Token) : Token := { t with position := .start }

variable {t t' : Token}

theorem Token.kind_of_bare_eq (h : t'.bare = t.bare) : t'.kind = t.kind :=
  (congrArg kind h :)

theorem Token.lexeme_of_bare_eq (h : t'.bare = t.bare) : t'.lexeme = t.lexeme :=
  (congrArg lexeme h :)

/-- Whether a name is repeated does not hang on places. -/
theorem Token.any_lexeme_eq {α : Type} {token : α → Token} {items items' : List α}
    (hitems : items'.map (fun x => (token x).bare) = items.map fun x => (token x).bare)
    (h : t'.bare = t.bare) : items'.any (fun x => (token x).lexeme == t'.lexeme) =
      items.any fun x => (token x).lexeme == t.lexeme := by
  have hany (items : List α) : items.any (fun x => (token x).lexeme == t.lexeme) =
      (items.map fun x => (token x).bare).any (·.lexeme == t.lexeme) := by
    rw [any_map]
    rfl
  rw [lexeme_of_bare_eq h, hany, hitems, ← hany]

namespace Cursor

variable {c : Cursor} {tokens rest : List Token} {depth : Nat} {P : List Token → Prop}

/-! ## Tokens that are left -/

/-- The kinds of the tokens that end a statement or stand around a block. -/
def breakKinds : List Kind := [.newline, .indent, .dedent]

/-- The tokens of a single line, with its line break. -/
def Line (tokens : List Token) : Prop :=
  ∃ body last, tokens = body ++ [last] ∧ last.kind = .newline ∧ ∀ t ∈ body, t.kind ∉ breakKinds

/-- As many blocks as are open are closed in the end. -/
def Closes (depth : Nat) (tokens : List Token) : Prop :=
  tokens.foldlM deepen depth = some 0

theorem Line.ne_nil (h : Line tokens) : tokens ≠ [] := by
  obtain ⟨body, last, rfl, -⟩ := h
  exact append_ne_nil_of_right_ne_nil body (cons_ne_nil _ _)

/-- What is not the line break is followed by the rest of the line. -/
theorem Line.tail (h : Line (t :: tokens)) (ht : t.kind ∉ breakKinds) : Line tokens := by
  obtain ⟨body, last, heq, hlast, hbody⟩ := h
  cases body with
  | nil =>
    cases heq
    exact absurd (hlast ▸ mem_cons_self) ht
  | cons first body =>
    cases heq
    exact ⟨body, last, rfl, hlast, fun u hu => hbody u (mem_cons_of_mem _ hu)⟩

theorem Line.cons (ht : t.kind ∉ breakKinds) (h : Line tokens) : Line (t :: tokens) := by
  obtain ⟨body, last, rfl, hlast, hbody⟩ := h
  exact ⟨t :: body, last, rfl, hlast, forall_mem_cons.mpr ⟨ht, hbody⟩⟩

/-- On a single line the line break is the last token. -/
theorem Line.eq_nil (h : Line (t :: tokens)) (ht : t.kind = .newline) : tokens = [] := by
  obtain ⟨body, last, heq, -, hbody⟩ := h
  cases body with
  | nil => exact (cons.inj heq).2
  | cons first body =>
    cases heq
    exact absurd (ht ▸ mem_cons_self) (hbody t mem_cons_self)

theorem Line.kind_ne (h : Line (t :: tokens)) : t.kind ≠ .indent ∧ t.kind ≠ .dedent := by
  obtain ⟨body, last, heq, hlast, hbody⟩ := h
  cases body with
  | nil =>
    cases heq
    rw [hlast]
    decide
  | cons first body =>
    cases heq
    have hkind := hbody t mem_cons_self
    exact ⟨fun h => hkind (h ▸ by decide), fun h => hkind (h ▸ by decide)⟩

theorem closes_cons (ht : t.kind ≠ .indent) (ht' : t.kind ≠ .dedent) :
    Closes depth (t :: tokens) ↔ Closes depth tokens := by
  unfold Closes
  rw [foldlM_cons, deepen_of_kind (by simpa using ⟨ht, ht'⟩)]
  rfl

theorem closes_indent (ht : t.kind = .indent) :
    Closes depth (t :: tokens) ↔ Closes (depth + 1) tokens := by
  unfold Closes
  rw [foldlM_cons, deepen, ht]
  rfl

theorem closes_dedent (ht : t.kind = .dedent) :
    Closes (depth + 1) (t :: tokens) ↔ Closes depth tokens := by
  unfold Closes
  rw [foldlM_cons, deepen, ht]
  rfl

theorem not_closes_nil : ¬ Closes (depth + 1) [] := nofun

/-! ## Leading words -/

theorem leadingWord_bare (h : t'.bare = t.bare) :
    (leadingWord t').map Token.bare = (leadingWord t).map Token.bare := by
  obtain ⟨kind, lexeme, literal, position⟩ := t
  obtain ⟨kind', lexeme', literal', position'⟩ := t'
  obtain ⟨rfl, rfl, rfl, -⟩ := Token.mk.inj h
  unfold leadingWord
  dsimp only
  split
  · rfl
  · split
    · rfl
    · split
      · rfl
      · split <;> rfl

/-- What depends only on the tokens that stand around blocks and end statements, and on what
follows them, is the same once a leading word is told apart. -/
theorem splitLeadingWord_induction
    (hcons : ∀ t rest, t.kind ∉ breakKinds → (P (t :: rest) ↔ P rest)) (h : P c.rest) :
    P c.splitLeadingWord.rest := by
  unfold splitLeadingWord
  split
  · exact h
  · next t rest hrest =>
    have hkeyword (k : Keyword) : Kind.keyword k ∉ breakKinds := by simp [breakKinds]
    have hname : Kind.identifier ∉ breakKinds := by decide
    rw [hrest] at h
    rcases leadingWord_cases t with heq | ⟨ht, k, -, heq⟩ | ⟨ht, k, _, _, _, -, -, -, -, heq⟩
    · rwa [heq]
    · rw [heq]
      exact (hcons _ rest (hkeyword k)).mpr ((hcons t rest (ht ▸ hname)).mp h)
    · rw [heq]
      exact (hcons _ _ (hkeyword k)).mpr
        ((hcons _ rest hname).mpr ((hcons t rest (ht ▸ hname)).mp h))

theorem rest_splitLeadingWord_eq_nil : c.splitLeadingWord.rest = [] ↔ c.rest = [] := by
  unfold splitLeadingWord
  split
  · exact Iff.rfl
  · next t rest hrest =>
    obtain ⟨first, more, hfirst⟩ := exists_leadingWord t
    rw [hrest, hfirst]
    exact ⟨nofun, nofun⟩

@[simp] theorem previousKind?_splitLeadingWord (c : Cursor) :
    c.splitLeadingWord.previousKind? = c.previousKind? := by
  unfold splitLeadingWord
  split <;> rfl

/-! ## Soft line breaks -/

/-- What holds of tokens holds behind soft line breaks. -/
theorem skipSoft_induction (hsoft : ∀ t rest, t.kind = .softNewline →
    P (t :: rest) → P rest) (final : Token) : ∀ taken rest : List Token, P rest →
      P (skipSoft taken final rest).rest
  | _, [], h => h
  | taken, t :: rest, h => by
    unfold skipSoft
    split
    · next ht => exact skipSoft_induction hsoft final (t :: taken) rest (hsoft t rest ht h)
    · exact h

/-- What holds behind a token, and behind soft line breaks, holds where the cursor goes on. -/
theorem advance_induction (hsoft : ∀ t rest, t.kind = .softNewline → P (t :: rest) → P rest)
    (hrest : c.rest = t :: rest) (h : P rest) : P c.advance.rest := by
  rw [advance, hrest]
  exact skipSoft_induction hsoft _ _ rest h

theorem exists_rest_eq (h : c.rest ≠ []) : ∃ t rest, c.rest = t :: rest ∧ t.kind = c.kind := by
  obtain ⟨t, rest, hrest⟩ := exists_cons_of_ne_nil h
  exact ⟨t, rest, hrest, by rw [kind, current, hrest, headD_cons]⟩

/-- No block begins or ends on a single line. -/
theorem Line.kind_ne_block (h : Line c.rest) : c.kind ≠ .indent ∧ c.kind ≠ .dedent := by
  obtain ⟨t, rest, hrest, ht⟩ := exists_rest_eq h.ne_nil
  rw [hrest] at h
  exact ht ▸ h.kind_ne

theorem Line.advance (h : Line c.rest) (hkind : c.kind ∉ breakKinds) : Line c.advance.rest := by
  obtain ⟨t, rest, hrest, ht⟩ := exists_rest_eq h.ne_nil
  rw [hrest] at h
  exact advance_induction (fun t rest hsoft hline => hline.tail (hsoft ▸ by decide)) hrest
    (h.tail (ht ▸ hkind))

/-- Nothing is left behind the line break of a single line. -/
theorem Line.advance_newline (h : Line c.rest) (hkind : c.kind = .newline) :
    c.advance.rest = [] := by
  obtain ⟨t, rest, hrest, ht⟩ := exists_rest_eq h.ne_nil
  rw [hrest] at h
  obtain rfl := h.eq_nil (ht.trans hkind)
  rw [Cursor.advance, hrest]
  rfl

/-- The blocks that are open behind a token are those that are open where the cursor goes on. -/
theorem Closes.advance
    (h : Closes depth rest) (hrest : c.rest = t :: rest) : Closes depth c.advance.rest :=
  advance_induction (fun _ _ hsoft => (closes_cons (hsoft ▸ nofun) (hsoft ▸ nofun)).mp) hrest h

theorem Closes.advance_of_kind (h : Closes depth c.rest)
    (hrest : c.rest ≠ []) (hindent : c.kind ≠ .indent) (hdedent : c.kind ≠ .dedent) :
    Closes depth c.advance.rest := by
  obtain ⟨t, rest, hcons, ht⟩ := exists_rest_eq hrest
  rw [hcons, closes_cons (ht ▸ hindent) (ht ▸ hdedent)] at h
  exact h.advance hcons

theorem Closes.advance_indent (h : Closes depth c.rest)
    (hrest : c.rest ≠ []) (hindent : c.kind = .indent) : Closes (depth + 1) c.advance.rest := by
  obtain ⟨t, rest, hcons, ht⟩ := exists_rest_eq hrest
  rw [hcons, closes_indent (ht.trans hindent)] at h
  exact h.advance hcons

theorem Closes.advance_dedent (h : Closes (depth + 1) c.rest)
    (hrest : c.rest ≠ []) (hdedent : c.kind = .dedent) : Closes depth c.advance.rest := by
  obtain ⟨t, rest, hcons, ht⟩ := exists_rest_eq hrest
  rw [hcons, closes_dedent (ht.trans hdedent)] at h
  exact h.advance hcons

/-! ## At the end -/

/-- The last token, if there is one, is a line break or closes a block. -/
def Broken (tokens : List Token) : Prop :=
  ∀ t ∈ tokens.getLast?, t.kind = .newline ∨ t.kind = .dedent

theorem Broken.tail (h : Broken (t :: rest)) : Broken rest := by
  cases rest with
  | nil => nofun
  | cons u rest => exact h

theorem Broken.tail_ne_nil (h : Broken (t :: rest))
    (hnewline : t.kind ≠ .newline) (hdedent : t.kind ≠ .dedent) : rest ≠ [] := by
  rintro rfl
  exact (h t rfl).elim hnewline hdedent

/-! Places make no difference. -/

theorem Line.of_bare (h : Line (tokens.map bare)) : Line tokens := by
  obtain ⟨body, last, heq, hlast, hbody⟩ := h
  obtain ⟨body, ends, rfl, rfl, hends⟩ := map_eq_append_iff.mp heq
  obtain ⟨last, rfl, rfl⟩ := map_eq_singleton_iff.mp hends
  exact ⟨body, last, rfl, hlast, fun t ht => hbody t.bare (mem_map_of_mem ht)⟩

theorem Closes.of_bare (h : Closes depth (tokens.map bare)) : Closes depth tokens := by
  rw [Closes, foldlM_map] at h
  exact h

theorem Broken.of_bare (h : Broken (tokens.map bare)) : Broken tokens := by
  intro t ht
  refine h t.bare ?_
  rw [getLast?_map, ht]
  rfl

/-- Tokens that end with a line break or the end of a block, with all blocks closed. -/
structure Ended (c : Cursor) : Prop where
  closes : ∃ depth, Closes depth c.rest
  broken : Broken c.rest
  previous : c.rest = [] → ∀ k ∈ c.previousKind?, k = .newline ∨ k = .dedent
  soft : c.rest = [] → c.afterSoftBreak = false

theorem exists_closes (h : ∃ depth, Closes depth (t :: rest)) : ∃ depth, Closes depth rest := by
  obtain ⟨depth, h⟩ := h
  unfold Closes at h
  rw [foldlM_cons] at h
  obtain ⟨depth', -, h⟩ := Option.bind_eq_some_iff.mp h
  exact ⟨depth', h⟩

namespace Ended

variable {c' : Cursor} (h : c.Ended)
include h

/-- Tokens that are left behind the next one are not all stepped over. -/
theorem rest_advance_ne_nil_of_tail
    (hcons : c.rest = t :: rest) (hrest : rest ≠ []) : c.advance.rest ≠ [] := by
  have hbroken := h.broken
  rw [hcons] at hbroken
  exact (advance_induction (P := fun rest => Broken rest ∧ rest ≠ []) (fun u rest hu h =>
    ⟨h.1.tail, h.1.tail_ne_nil (hu ▸ nofun) (hu ▸ nofun)⟩) hcons ⟨hbroken.tail, hrest⟩).2

/-- What is no line break and closes no block is followed by a token. -/
theorem rest_advance_ne_nil (hrest : c.rest ≠ []) (hnewline : c.kind ≠ .newline)
    (hdedent : c.kind ≠ .dedent) : c.advance.rest ≠ [] := by
  obtain ⟨t, rest, hcons, ht⟩ := exists_rest_eq hrest
  have hbroken := h.broken
  rw [hcons] at hbroken
  exact h.rest_advance_ne_nil_of_tail hcons (hbroken.tail_ne_nil (ht ▸ hnewline) (ht ▸ hdedent))

theorem kind_of_rest_advance (hrest : c.rest ≠ []) (hnil : c.advance.rest = []) :
    c.kind = .newline ∨ c.kind = .dedent := by
  by_contra hkind
  rw [not_or] at hkind
  exact h.rest_advance_ne_nil hrest hkind.1 hkind.2 hnil

theorem advance (hc : c.Settled) (hrest : c.rest ≠ []) : c.advance.Ended := by
  obtain ⟨t, rest, hcons, ht⟩ := exists_rest_eq hrest
  refine ⟨?_, ?_, fun hnil k hk => ?_, fun hnil => ?_⟩
  · exact advance_induction (P := fun rest => ∃ depth, Closes depth rest)
      (fun _ _ _ => exists_closes) hcons (exists_closes (hcons ▸ h.closes))
  · exact advance_induction (fun _ _ _ => Broken.tail) hcons (Broken.tail (hcons ▸ h.broken))
  · rw [previousKind?_advance hrest (ht ▸ hc.head t (by rw [hcons]; rfl))] at hk
    cases hk
    exact h.kind_of_rest_advance hrest hnil
  · obtain rfl : rest = [] := not_not.mp fun hne => h.rest_advance_ne_nil_of_tail hcons hne hnil
    rw [Cursor.advance, hcons]
    exact decide_eq_false (hc.head t (by rw [hcons]; rfl))

theorem splitLeadingWord : c.splitLeadingWord.Ended := by
  by_cases hrest : c.rest = []
  · have hsame : c.splitLeadingWord = c := by rw [Cursor.splitLeadingWord, hrest]
    rwa [hsame]
  · have hbroken := splitLeadingWord_induction (c := c) (P := fun rest => Broken rest ∧ rest ≠ [])
      (fun t rest ht => ?_) ⟨h.broken, hrest⟩
    · refine ⟨?_, hbroken.1, fun hnil => absurd hnil hbroken.2, fun hnil => absurd hnil hbroken.2⟩
      exact splitLeadingWord_induction (P := fun rest => ∃ depth, Closes depth rest)
        (fun t rest ht => exists_congr fun _ => closes_cons (fun h => ht (h ▸ by decide))
          fun h => ht (h ▸ by decide)) h.closes
    · refine ⟨fun h => ⟨h.1.tail, h.1.tail_ne_nil (fun h => ht (h ▸ by decide))
        fun h => ht (h ▸ by decide)⟩, fun h => ⟨?_, cons_ne_nil _ _⟩⟩
      obtain ⟨u, rest, rfl⟩ := exists_cons_of_ne_nil h.2
      exact h.1

theorem step (hc : c.Settled) (hstep : Step c c') : c'.Ended := by
  cases hstep with
  | advance hrest => exact h.advance hc hrest
  | split => exact h.splitLeadingWord

theorem reaches (hc : c.Settled) (hreaches : Reaches c c') : c'.Ended := by
  induction hreaches with
  | refl => exact h
  | tail hreaches hstep ih => exact ih.step (hc.reaches hreaches) hstep

end Ended

/-! ## The same place in a larger program -/

/-- Behind the tokens that are left at one cursor there are these too at the other.  Places, and
what was taken, may differ. -/
structure Continues (behind : List Token) (c c' : Cursor) : Prop where
  final : c'.final.kind = .eof
  rest : c'.rest.map bare = (c.rest ++ behind).map bare
  soft : c'.afterSoftBreak = c.afterSoftBreak

/-- Tokens that can stand behind others: a statement begins there. -/
structure Behind (tokens : List Token) : Prop where
  kind_ne : ∀ t ∈ tokens, t.kind ≠ .eof
  head : ∀ t ∈ tokens.head?, t.kind ≠ .newline ∧ t.kind ≠ .softNewline

variable {behind : List Token} {c' : Cursor}

namespace Continues

variable (h : Continues behind c c')
include h

theorem cons (hrest : c.rest = t :: rest) : ∃ t' rest', c'.rest = t' :: rest' ∧ t'.bare = t.bare ∧
      rest'.map bare = (rest ++ behind).map bare := by
  have hmap := h.rest
  rw [hrest, cons_append, map_cons] at hmap
  obtain ⟨t', rest', hrest', ht, hlater⟩ := map_eq_cons_iff.mp hmap
  exact ⟨t', rest', hrest', ht, hlater⟩

theorem current (hrest : c.rest ≠ []) : c'.current.bare = c.current.bare := by
  obtain ⟨t, rest, hc⟩ := exists_cons_of_ne_nil hrest
  obtain ⟨t', rest', hc', ht, -⟩ := h.cons hc
  rwa [Cursor.current, Cursor.current, hc, hc']

theorem kind (hc : c.final.kind = .eof) (hrest : c.rest ≠ [] ∨ behind = []) : c'.kind = c.kind := by
  by_cases hnil : c.rest = []
  · have hnone := h.rest
    rw [hrest.resolve_left (not_not.mpr hnil), hnil] at hnone
    rw [Cursor.kind, Cursor.current, Cursor.kind, Cursor.current, hnil, map_eq_nil_iff.mp hnone]
    exact h.final.trans hc.symm
  · exact kind_of_bare_eq (h.current hnil)

/-- At the end of its tokens a cursor is before those behind. -/
theorem kind_behind (hrest : c.rest = []) :
    c'.kind = .eof ∨ ∃ t ∈ behind.head?, c'.kind = t.kind := by
  have hmap := h.rest
  rw [hrest, nil_append] at hmap
  cases hbehind : behind with
  | nil =>
    rw [hbehind] at hmap
    rw [Cursor.kind, Cursor.current, List.map_eq_nil_iff.mp hmap]
    exact .inl h.final
  | cons t later =>
    rw [hbehind] at hmap
    obtain ⟨t', rest', hrest', ht, -⟩ := map_eq_cons_iff.mp hmap
    refine .inr ⟨t, rfl, ?_⟩
    rw [Cursor.kind, Cursor.current, hrest']
    exact kind_of_bare_eq ht

omit h

theorem skipSoft (hbehind : Behind behind) {final final'} (hfinal : final'.kind = .eof) :
    ∀ {taken taken' rest rest'},
      rest'.map Token.bare = (rest ++ behind).map Token.bare →
      afterSoftBreak ⟨taken', rest', final'⟩ = afterSoftBreak ⟨taken, rest, final⟩ →
      Continues behind (Cursor.skipSoft taken final rest) (Cursor.skipSoft taken' final' rest')
  | taken, taken', [], rest', hrest, hsoft => by
    have hstay : Cursor.skipSoft taken' final' rest' = ⟨taken', rest', final'⟩ := by
      cases rest' with
      | nil => rfl
      | cons t' rest' =>
        cases hlater : behind with
        | nil =>
          rw [hlater] at hrest
          cases hrest
        | cons t later =>
          rw [hlater] at hrest
          have ht := Token.kind_of_bare_eq (List.cons.inj hrest).1
          rw [Cursor.skipSoft, if_neg]
          rw [ht]
          exact (hbehind.head t (by rw [hlater]; rfl)).2
    rw [hstay]
    exact ⟨hfinal, hrest, hsoft⟩
  | taken, taken', t :: rest, rest', hrest, hsoft => by
    rw [List.cons_append, List.map_cons] at hrest
    obtain ⟨t', rest', rfl, ht, hlater⟩ := List.map_eq_cons_iff.mp hrest
    have hkind := Token.kind_of_bare_eq ht
    unfold Cursor.skipSoft
    rw [hkind]
    split
    · next hnewline =>
      refine skipSoft hbehind hfinal hlater ?_
      rw [afterSoftBreak, afterSoftBreak]
      simp only [hkind]
    · refine ⟨hfinal, ?_, hsoft⟩
      rw [List.cons_append, List.map_cons, List.map_cons, hlater, ht]

theorem advance (hbehind : Behind behind) (h : Continues behind c c') (hrest : c.rest ≠ []) :
    Continues behind c.advance c'.advance := by
  obtain ⟨t, rest, hc⟩ := exists_cons_of_ne_nil hrest
  obtain ⟨t', rest', hc', ht, hlater⟩ := h.cons hc
  rw [Cursor.advance, Cursor.advance, hc, hc']
  refine skipSoft hbehind h.final hlater ?_
  rw [afterSoftBreak, afterSoftBreak]
  simp only [kind_of_bare_eq ht]

include h

theorem splitLeadingWord (hrest : c.rest ≠ [] ∨ behind = []) :
    Continues behind c.splitLeadingWord c'.splitLeadingWord := by
  by_cases hnil : c.rest = []
  · have hnone := h.rest
    rw [hrest.resolve_left (not_not.mpr hnil), hnil] at hnone
    have hsame : c'.splitLeadingWord = c' := by
      rw [Cursor.splitLeadingWord, map_eq_nil_iff.mp hnone]
    have hsame' : c.splitLeadingWord = c := by rw [Cursor.splitLeadingWord, hnil]
    rwa [hsame, hsame']
  · obtain ⟨t, rest, hc⟩ := exists_cons_of_ne_nil hnil
    obtain ⟨t', rest', hc', ht, hlater⟩ := h.cons hc
    rw [Cursor.splitLeadingWord, Cursor.splitLeadingWord, hc, hc']
    refine ⟨h.final, ?_, h.soft⟩
    rw [map_append, leadingWord_bare ht, hlater, append_assoc, ← map_append]

theorem rest_eq_nil (hrest : c'.rest = []) : c.rest = [] := by
  have hmap := h.rest
  rw [hrest] at hmap
  exact (append_eq_nil_iff.mp (map_eq_nil_iff.mp hmap.symm)).1

omit h

theorem settled (hbehind : Behind behind) (h : Continues behind c c') (hc : c.Settled) :
    c'.Settled := by
  refine ⟨h.final, fun t ht => ?_, fun t ht => ?_⟩
  · have hmem := mem_map_of_mem (f := bare) ht
    rw [h.rest] at hmem
    obtain ⟨u, hu, heq⟩ := mem_map.mp hmem
    rw [← kind_of_bare_eq heq]
    exact (mem_append.mp hu).elim (hc.rest u) (hbehind.kind_ne u)
  · obtain ⟨rest', hrest'⟩ := head?_eq_some_iff.mp ht
    have hkind : c'.kind = t.kind := by rw [Cursor.kind, Cursor.current, hrest', headD_cons]
    rw [← hkind]
    by_cases hrest : c.rest = []
    · rcases h.kind_behind hrest with heof | ⟨u, hu, heq⟩
      · simp [heof]
      · rw [heq]
        exact (hbehind.head u hu).2
    · rw [h.kind hc.final (.inl hrest)]
      obtain ⟨u, rest, hcons⟩ := exists_cons_of_ne_nil hrest
      rw [Cursor.kind, Cursor.current, hcons, headD_cons]
      exact hc.head u (by rw [hcons]; rfl)

end Continues

/-- The token taken last closes a block at both cursors, or at neither. -/
def Agrees (c c' : Cursor) : Prop :=
  c'.previousKind? = some .dedent ↔ c.previousKind? = some .dedent

theorem Settled.kind_ne (h : c.Settled) : c.kind ≠ .softNewline := by
  unfold kind current
  cases hrest : c.rest with
  | nil =>
    rw [headD_nil, h.final]
    nofun
  | cons t rest => exact h.head t (by rw [hrest]; rfl)

namespace Continues

theorem agrees_advance (h : Continues behind c c') (hc : c.Settled) (hrest : c.rest ≠ []) :
    Agrees c.advance c'.advance := by
  have hkind := h.kind hc.final (.inl hrest)
  have hrest' : c'.rest ≠ [] := fun hnil => hrest (h.rest_eq_nil hnil)
  rw [Agrees, previousKind?_advance hrest hc.kind_ne,
    previousKind?_advance hrest' (hkind ▸ hc.kind_ne), hkind]

/-- Line breaks are skipped alike: there is none before the tokens behind. -/
theorem skipNewlines (hbehind : Behind behind) : ∀ {c c'}, c.Settled →
    Continues behind c c' → Continues behind c.skipNewlines c'.skipNewlines ∧
      (Agrees c c' → Agrees c.skipNewlines c'.skipNewlines)
  | c, c', hc, h => by
    have hc' := h.settled hbehind hc
    by_cases hkind : c.kind = .newline
    · obtain ⟨hrest, heq⟩ := skipNewlines_of_newline hc hkind
      have hkind' : c'.kind = .newline := (h.kind hc.final (.inl hrest)).trans hkind
      rw [heq, (skipNewlines_of_newline hc' hkind').2]
      obtain ⟨hskip, hagrees⟩ := skipNewlines hbehind hc.advance (h.advance hbehind hrest)
      exact ⟨hskip, fun _ => hagrees (h.agrees_advance hc hrest)⟩
    · have hkind' : c'.kind ≠ .newline := by
        by_cases hrest : c.rest = []
        · rcases h.kind_behind hrest with heof | ⟨t, ht, heq⟩
          · rw [heof]
            nofun
          · rw [heq]
            exact (hbehind.head t ht).1
        · rwa [h.kind hc.final (.inl hrest)]
      rw [skipNewlines_of_kind_ne hc hkind, skipNewlines_of_kind_ne hc' hkind']
      exact ⟨h, id⟩
termination_by c => c.weight
decreasing_by exact weight_advance_lt hrest

/-- A malformed statement is skipped alike: there is an end of it before the tokens behind. -/
theorem skipStatement (hbehind : Behind behind) : ∀ {c c'}, c.Settled →
    (behind ≠ [] → c.Ended) → (c.rest ≠ [] ∨ behind = []) → Continues behind c c' →
      Continues behind c.skipStatement c'.skipStatement ∧
        (Agrees c c' → Agrees c.skipStatement c'.skipStatement)
  | c, c', hc, hended, hshown, h => by
    have hkind := h.kind hc.final hshown
    by_cases hrest : c.rest = []
    · have hnil : c'.rest = [] := by
        have hmap := h.rest
        rw [hrest, hshown.resolve_left (not_not.mpr hrest)] at hmap
        exact map_eq_nil_iff.mp hmap
      have hne : c.kind ≠ .newline := by
        rw [hc.rest_eq_nil_iff.mp hrest]
        nofun
      rw [skipStatement_of_kind (.inl hrest), skipStatement_of_kind (.inl hnil), hkind,
        if_neg hne, if_neg hne]
      exact ⟨h, id⟩
    · by_cases hstop : c.kind = .newline ∨ c.kind = .dedent
      · rw [skipStatement_of_kind (.inr hstop), skipStatement_of_kind (.inr (hkind ▸ hstop)), hkind]
        split
        · exact ⟨h.advance hbehind hrest, fun _ => h.agrees_advance hc hrest⟩
        · exact ⟨h, id⟩
      · rw [not_or] at hstop
        have hrest' : c'.rest ≠ [] := fun hnil => hrest (h.rest_eq_nil hnil)
        have hshown' : c.advance.rest ≠ [] ∨ behind = [] := by
          by_cases hnone : behind = []
          · exact .inr hnone
          · exact .inl ((hended hnone).rest_advance_ne_nil hrest hstop.1 hstop.2)
        rw [skipStatement_of_kind_ne hrest hstop.1 hstop.2,
          skipStatement_of_kind_ne hrest' (hkind ▸ hstop.1) (hkind ▸ hstop.2)]
        obtain ⟨hskip, hagrees⟩ := skipStatement hbehind hc.advance
          (fun hne => (hended hne).advance hc hrest) hshown' (h.advance hbehind hrest)
        exact ⟨hskip, fun _ => hagrees (h.agrees_advance hc hrest)⟩
termination_by c => c.weight
decreasing_by exact weight_advance_lt hrest

/-- The token behind one that ends no statement and closes no block is the same. -/
theorem nextKind? (h : Continues behind c c') (hended : behind ≠ [] → c.Ended)
    (hrest : c.rest ≠ []) (hnewline : c.kind ≠ .newline) (hdedent : c.kind ≠ .dedent) :
    c'.nextKind? = c.nextKind? := by
  obtain ⟨t, rest, hcons, ht⟩ := exists_rest_eq hrest
  obtain ⟨t', rest', hcons', -, hlater⟩ := h.cons hcons
  have hfind (tokens : List Token) : (tokens.find? (·.kind ≠ .softNewline)).map (·.kind) =
        ((tokens.map bare).find? (·.kind ≠ .softNewline)).map (·.kind) := by
    rw [find?_map, Option.map_map]
    rfl
  rw [Cursor.nextKind?, Cursor.nextKind?, hcons, hcons', drop_one, drop_one,
    tail_cons, tail_cons, hfind, hlater, ← hfind, find?_append]
  by_cases hnone : behind = []
  · rw [hnone, find?_nil, Option.or_none]
  · -- The last token is no soft line break, so one is found before the tokens behind.
    have hbroken := (hended hnone).broken
    rw [hcons] at hbroken
    have hne := hbroken.tail_ne_nil (ht ▸ hnewline) (ht ▸ hdedent)
    have hsome : (rest.find? (·.kind ≠ .softNewline)).isSome := by
      refine find?_isSome.mpr ⟨rest.getLast hne, getLast_mem hne, ?_⟩
      rcases hbroken.tail _ (getLast?_eq_some_getLast hne) with hkind | hkind
      · rw [hkind]
        decide
      · rw [hkind]
        decide
    obtain ⟨u, hu⟩ := Option.isSome_iff_exists.mp hsome
    rw [hu, Option.some_or]

end Continues

theorem rest_skipNewlines_eq_nil (h : c.rest = []) : c.skipNewlines.rest = [] := by
  rw [Cursor.skipNewlines, h]
  rfl

theorem rest_skipStatement_eq_nil (hc : c.Settled) (h : c.rest = []) :
    c.skipStatement.rest = [] := by
  rw [skipStatement_of_kind (.inl h), if_neg (by rw [hc.rest_eq_nil_iff.mp h]; nofun), h]

/-- No block is opened or closed by the line breaks that are skipped. -/
theorem Closes.skipNewlines : ∀ {c : Cursor}, c.Settled → Closes depth c.rest →
    Closes depth c.skipNewlines.rest
  | c, hc, h => by
    by_cases hkind : c.kind = .newline
    · obtain ⟨hrest, heq⟩ := skipNewlines_of_newline hc hkind
      rw [heq]
      exact Closes.skipNewlines hc.advance (h.advance_of_kind hrest (hkind ▸ nofun) (hkind ▸ nofun))
    · rwa [skipNewlines_of_kind_ne hc hkind]
termination_by c => c.weight
decreasing_by exact weight_advance_lt hrest

/-- Nothing is left behind the line break that ends a malformed line. -/
theorem Line.rest_skipStatement : ∀ {c : Cursor}, Line c.rest → c.skipStatement.rest = []
  | c, h => by
    by_cases hnewline : c.kind = .newline
    · rw [skipStatement_of_kind (.inr (.inl hnewline)), if_pos hnewline]
      exact h.advance_newline hnewline
    · have hkind := h.kind_ne_block
      rw [skipStatement_of_kind_ne h.ne_nil hnewline hkind.2]
      exact Line.rest_skipStatement (h.advance (by
        simpa [breakKinds] using ⟨hnewline, hkind.1, hkind.2⟩))
termination_by c => c.weight
decreasing_by exact weight_advance_lt h.ne_nil

end Cursor

end Offside
