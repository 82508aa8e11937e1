import Mathlib.Data.List.Basic
import Mathlib.Data.List.TakeWhile
import Mathlib.Logic.Relation
import Offside.Syntax.Program

/-!
# Proofs/Steps — how a cursor moves

A cursor moves by two steps only: over a token, or by telling a leading word apart (`Step`).  Line
breaks and malformed statements are skipped by such steps.  The weight of a cursor, the words that
are left, falls with a step over a token and stays with the other (`Reaches.forward`), since the
parts of a leading word have the words of the whole (`words_leadingWord`).
-/

namespace Offside

open List

namespace Cursor

variable (tokens : List Token) {c c' : Cursor} {final t first : Token} {more rest : List Token}

theorem current_skipSoft {taken} :
    ∀ {rest}, (skipSoft taken final rest).current = (rest.find? (·.kind ≠ .softNewline)).getD final
  | [] => rfl
  | t :: rest => by
    unfold Cursor.skipSoft
    by_cases h : t.kind = .softNewline
    · rw [if_pos h, current_skipSoft, find?_cons_of_neg (by simpa using h)]
    · rw [if_neg h, find?_cons_of_pos (by simpa using h)]
      rfl

/-- The token behind the cursor's is the next one to be taken. -/
theorem kind_advance {k} (h : c.nextKind? = some k) : c.advance.kind = k := by
  obtain ⟨t, ht, rfl⟩ := Option.map_eq_some_iff.mp h
  unfold Cursor.advance
  cases hr : c.rest with
  | nil =>
    rw [hr] at ht
    cases ht
  | cons first rest =>
    rw [hr] at ht
    rw [Cursor.kind, current_skipSoft, show rest.find? _ = some t from ht]
    rfl

@[simp] theorem kind_finalOf : (finalOf tokens).kind = .eof := by
  unfold finalOf
  split
  · next t h => simpa using find?_some h
  · rfl

/-! ## Leading words -/

/-- What a leading word is told apart into: itself, a keyword, or a keyword and the name behind the
first joiner. -/
theorem leadingWord_cases (t : Token) : leadingWord t = [t] ∨
    (t.kind = .identifier ∧ ∃ k, Keyword.ofWord? t.lexeme = some k ∧
      leadingWord t = [{ t with kind := .keyword k }]) ∨
    (t.kind = .identifier ∧ ∃ k first joiner later, t.lexeme.toList = first ++ joiner :: later ∧
      Token.isJoiner joiner = true ∧ (∀ c ∈ first, Token.isJoiner c = false) ∧
      Keyword.ofWord? (String.ofList first) = some k ∧
      leadingWord t = [{ t with kind := .keyword k, lexeme := String.ofList first },
        ⟨.identifier, String.ofList later, none, t.position.right (first.length + 1)⟩]) := by
  unfold leadingWord
  split
  · exact .inl rfl
  · next hkind =>
    have hkind : t.kind = .identifier := not_not.mp hkind
    split
    · next k hk => exact .inr (.inl ⟨hkind, k, hk, rfl⟩)
    · split
      · exact .inl rfl
      · next first later hsplit =>
        split
        · exact .inl rfl
        · next k hk =>
          refine .inr (.inr ⟨hkind, k, first, ?_⟩)
          unfold splitName? at hsplit
          split at hsplit
          · cases hsplit
          · next joiner later' hdrop =>
            obtain ⟨rfl, rfl⟩ := Prod.mk.inj (Option.some.inj hsplit)
            refine ⟨joiner, later', ?_, ?_, ?_, hk, rfl⟩
            · rw [← hdrop, takeWhile_append_dropWhile]
            · have hhead := head?_dropWhile_not (!Token.isJoiner ·) t.lexeme.toList
              rw [hdrop] at hhead
              simpa using hhead
            · intro c hc
              simpa using mem_takeWhile_imp hc

/-- A word that changes becomes a keyword. -/
theorem leadingWord_eq_of_not_keyword
    (h : leadingWord t = first :: more) (hfirst : ∀ k, first.kind ≠ .keyword k) :
    first = t ∧ more = [] := by
  rcases leadingWord_cases t with heq | ⟨-, k, -, heq⟩ | ⟨-, k, _, _, _, -, -, -, -, heq⟩
  · rw [heq] at h
    cases h
    exact ⟨rfl, rfl⟩
  · rw [heq] at h
    cases h
    exact absurd rfl (hfirst k)
  · rw [heq] at h
    cases h
    exact absurd rfl (hfirst k)

theorem leadingWord_of_kind_ne (h : t.kind ≠ .identifier) : leadingWord t = [t] :=
  if_pos h

/-- A word that was told apart stays as it is. -/
theorem leadingWord_head (h : leadingWord t = first :: more) : leadingWord first = [first] := by
  by_cases hkeyword : ∃ k, first.kind = .keyword k
  · obtain ⟨k, hk⟩ := hkeyword
    exact leadingWord_of_kind_ne (by rw [hk]; nofun)
  · obtain ⟨rfl, rfl⟩ := leadingWord_eq_of_not_keyword h fun k hk => hkeyword ⟨k, hk⟩
    exact h

theorem exists_leadingWord (t : Token) : ∃ first more, leadingWord t = first :: more := by
  rcases leadingWord_cases t with h | ⟨-, k, -, h⟩ | ⟨-, k, _, _, _, -, -, -, -, h⟩
  · exact ⟨_, _, h⟩
  · exact ⟨_, _, h⟩
  · exact ⟨_, _, h⟩

/-- The parts of a leading word are itself, keywords and names. -/
theorem kind_of_mem_leadingWord {part} (h : part ∈ leadingWord t) :
    part = t ∨ (∃ k, part.kind = .keyword k) ∨ part.kind = .identifier := by
  rcases leadingWord_cases t with heq | ⟨-, k, -, heq⟩ | ⟨-, k, _, _, _, -, -, -, -, heq⟩
  · exact .inl (mem_singleton.mp (heq ▸ h))
  · rw [heq, mem_singleton] at h
    exact .inr (.inl ⟨k, h ▸ rfl⟩)
  · rw [heq, mem_cons, mem_singleton] at h
    rcases h with rfl | rfl
    · exact .inr (.inl ⟨k, rfl⟩)
    · exact .inr (.inr rfl)

/-! ## Weight -/

/-- The number of words of tokens. -/
def words (tokens : List Token) : Nat :=
  tokens.foldr (fun t words => t.lexeme.toList.countP Token.isJoiner + 1 + words) 0

theorem weight_eq (c : Cursor) : c.weight = words c.rest := rfl

@[simp] theorem words_cons (t : Token) (tokens : List Token) :
    words (t :: tokens) = t.lexeme.toList.countP Token.isJoiner + 1 + words tokens := rfl

@[simp] theorem words_append (a b : List Token) : words (a ++ b) = words a + words b := by
  induction a with
  | nil => exact (Nat.zero_add _).symm
  | cons t a ih => simp [ih, Nat.add_assoc _ (words a)]

@[simp] theorem words_leadingWord (t : Token) : words (leadingWord t) = words [t] := by
  rcases leadingWord_cases t with h | ⟨-, k, -, h⟩ |
    ⟨-, k, first, joiner, later, hlexeme, hjoiner, hfirst, -, h⟩
  · rw [h]
  · rw [h]
    rfl
  · have hcount : first.countP Token.isJoiner = 0 :=
      countP_eq_zero.mpr fun c hc => by rw [hfirst c hc]; exact Bool.false_ne_true
    rw [h, words_cons, words_cons, words_cons, hlexeme, countP_append, countP_cons,
      if_pos hjoiner, String.toList_ofList, String.toList_ofList, hcount]
    omega

theorem words_skipSoft_le (final : Token) : ∀ taken rest : List Token,
    (skipSoft taken final rest).weight ≤ words rest
  | _, [] => Nat.le_refl _
  | taken, t :: rest => by
    unfold skipSoft
    split
    · have ih := words_skipSoft_le final (t :: taken) rest
      rw [words_cons]
      omega
    · exact Nat.le_refl _

/-- To advance makes the weight smaller. -/
theorem weight_advance_lt (h : c.rest ≠ []) : c.advance.weight < c.weight := by
  obtain ⟨t, rest, hrest⟩ := exists_cons_of_ne_nil h
  have hle := words_skipSoft_le c.final (t :: c.taken) rest
  unfold advance
  rw [hrest, weight_eq c, hrest, words_cons]
  dsimp only
  omega

/-- The token taken last is the one that was at the cursor. -/
theorem previousKind?_advance (h : c.rest ≠ []) (hkind : c.kind ≠ .softNewline) :
    c.advance.previousKind? = some c.kind := by
  have hskip : ∀ (taken rest : List Token),
      (skipSoft taken c.final rest).previousKind? = previousKind? ⟨taken, rest, c.final⟩ := by
    intro taken rest
    induction rest generalizing taken with
    | nil => rfl
    | cons t rest ih =>
      unfold skipSoft
      split
      · next hsoft =>
        rw [ih, previousKind?, find?_cons_of_neg (by simpa using hsoft)]
        rfl
      · rfl
  obtain ⟨t, rest, hrest⟩ := exists_cons_of_ne_nil h
  have ht : c.kind = t.kind := by rw [kind, current, hrest, headD_cons]
  rw [advance, hrest, hskip, previousKind?,
    find?_cons_of_pos (by simpa using ht ▸ hkind), Option.map_some, ht]

@[simp] theorem weight_splitLeadingWord (c : Cursor) : c.splitLeadingWord.weight = c.weight := by
  unfold splitLeadingWord
  split
  · rfl
  · next t rest hrest =>
    rw [weight_eq, weight_eq, hrest, words_append, words_leadingWord, ← words_append]
    rfl

/-! ## Steps -/

/-- A step of a cursor: over a token, or to a leading word told apart. -/
inductive Step : Cursor → Cursor → Prop
  | advance {c : Cursor} (h : c.rest ≠ []) : Step c c.advance
  | split (c : Cursor) : Step c c.splitLeadingWord

/-- Some steps lead from one cursor to the other. -/
abbrev Reaches : Cursor → Cursor → Prop := Relation.ReflTransGen Step

theorem taken_skipSoft (final : Token) : ∀ taken rest : List Token,
    taken.length ≤ (skipSoft taken final rest).taken.length
  | _, [] => Nat.le_refl _
  | taken, t :: rest => by
    unfold skipSoft
    split
    · exact Nat.le_of_succ_le (taken_skipSoft final (t :: taken) rest)
    · exact Nat.le_refl _

theorem length_taken_advance (h : c.rest ≠ []) : c.taken.length < c.advance.taken.length := by
  obtain ⟨t, rest, hrest⟩ := exists_cons_of_ne_nil h
  unfold advance
  rw [hrest]
  exact taken_skipSoft c.final (t :: c.taken) rest

/-- A cursor goes forward with every word that is taken off. -/
theorem Reaches.forward (h : Reaches c c') :
    c'.weight ≤ c.weight ∧ (c'.weight = c.weight ∧ c'.taken.length = c.taken.length ∨
      c.taken.length < c'.taken.length) := by
  induction h with
  | refl => exact ⟨Nat.le_refl _, .inl ⟨rfl, rfl⟩⟩
  | @tail d _ _ hstep ih =>
    cases hstep with
    | advance hrest =>
      have hweight := weight_advance_lt hrest
      have hlength := length_taken_advance hrest
      omega
    | split =>
      have hlength : d.splitLeadingWord.taken = d.taken := by
        unfold splitLeadingWord
        split <;> rfl
      rw [weight_splitLeadingWord, hlength]
      exact ih

theorem Reaches.weight_le (h : Reaches c c') : c'.weight ≤ c.weight := h.forward.1

theorem Reaches.length_lt (h : Reaches c c') (hlt : c'.weight < c.weight) :
    c.taken.length < c'.taken.length := by
  have := h.forward.2
  omega

@[simp] theorem final_skipSoft (final : Token) : ∀ taken rest : List Token,
    (skipSoft taken final rest).final = final
  | _, [] => rfl
  | taken, t :: rest => by
    unfold skipSoft
    split
    · exact final_skipSoft final (t :: taken) rest
    · rfl

/-- The final token stays the same. -/
theorem Reaches.final_eq (h : Reaches c c') : c'.final = c.final := by
  induction h with
  | refl => rfl
  | @tail d _ _ hstep ih =>
    cases hstep with
    | advance =>
      unfold advance
      split
      · exact ih
      · simp [ih]
    | split =>
      unfold splitLeadingWord
      split <;> exact ih

theorem kind_splitLeadingWord (c : Cursor) :
    c.splitLeadingWord.kind = c.kind ∨ ∃ k, c.splitLeadingWord.kind = .keyword k := by
  unfold splitLeadingWord
  split
  · exact .inl rfl
  · next t rest hrest =>
    obtain ⟨first, more, hfirst⟩ := exists_leadingWord t
    have hkind : c.kind = t.kind := by rw [kind, current, hrest, headD_cons]
    by_cases hkeyword : ∃ k, first.kind = .keyword k
    · obtain ⟨k, hk⟩ := hkeyword
      exact .inr ⟨k, by rw [hfirst]; exact hk⟩
    · obtain ⟨rfl, rfl⟩ := leadingWord_eq_of_not_keyword hfirst fun k hk => hkeyword ⟨k, hk⟩
      exact .inl (by rw [hfirst, hkind]; rfl)

/-- Where no word was taken off, the cursor stands before what it stood before, or before the
keyword that it was told apart into. -/
theorem Reaches.kind_of_weight_eq (h : Reaches c c') (heq : c'.weight = c.weight) :
    c'.kind = c.kind ∨ ∃ k, c'.kind = .keyword k := by
  induction h with
  | refl => exact .inl rfl
  | @tail d _ hreaches hstep ih =>
    have hle := Reaches.weight_le hreaches
    cases hstep with
    | advance hrest =>
      have hlt := weight_advance_lt hrest
      omega
    | split =>
      rw [weight_splitLeadingWord] at heq
      rcases kind_splitLeadingWord d with hkind | hkeyword
      · rw [hkind]
        exact ih heq
      · exact .inr hkeyword

/-! ## Cursors in good order -/

/-- The end of input stands at the end only, and soft line breaks have been stepped over. -/
structure Settled (c : Cursor) : Prop where
  final : c.final.kind = .eof
  rest : ∀ t ∈ c.rest, t.kind ≠ .eof
  head : ∀ t ∈ c.rest.head?, t.kind ≠ .softNewline

theorem settled_skipSoft {taken} (hfinal : final.kind = .eof) :
    ∀ {rest}, (∀ t ∈ rest, t.kind ≠ .eof) → Settled (skipSoft taken final rest)
  | [], h => ⟨hfinal, h, nofun⟩
  | t :: rest, h => by
    unfold skipSoft
    split
    · exact settled_skipSoft hfinal fun t ht => h t (mem_cons_of_mem _ ht)
    · next hkind =>
      refine ⟨hfinal, h, ?_⟩
      rintro _ ⟨⟩
      exact hkind

theorem Settled.advance (h : c.Settled) : c.advance.Settled := by
  unfold Cursor.advance
  split
  · exact h
  · next t rest hrest =>
    exact settled_skipSoft h.final fun t ht => h.rest t (hrest ▸ mem_cons_of_mem _ ht)

/-- Splitting a word keeps the cursor in good order. -/
theorem Settled.splitLeadingWord (h : c.Settled) : c.splitLeadingWord.Settled := by
  unfold Cursor.splitLeadingWord
  split
  · exact h
  · next t rest hrest =>
    have hpart : ∀ part ∈ leadingWord t, part.kind ≠ .eof ∧ part.kind ≠ .softNewline := by
      intro part hpart
      rcases kind_of_mem_leadingWord hpart with rfl | ⟨k, hk⟩ | hname
      · exact ⟨h.rest part (hrest ▸ mem_cons_self), h.head part (by rw [hrest]; rfl)⟩
      · rw [hk]
        exact ⟨nofun, nofun⟩
      · rw [hname]
        exact ⟨nofun, nofun⟩
    refine ⟨h.final, fun t' ht' => ?_, fun t' ht' => ?_⟩
    · rcases mem_append.mp ht' with ht' | ht'
      · exact (hpart t' ht').1
      · exact h.rest t' (hrest ▸ mem_cons_of_mem _ ht')
    · obtain ⟨first, more, hfirst⟩ := exists_leadingWord t
      rw [hfirst] at ht' hpart
      obtain rfl : first = t' := Option.some.inj ht'
      exact (hpart first mem_cons_self).2

theorem Settled.step (h : c.Settled) (hstep : Step c c') : c'.Settled := by
  cases hstep with
  | advance => exact h.advance
  | split => exact h.splitLeadingWord

theorem Settled.reaches (h : c.Settled) (hreaches : Reaches c c') : c'.Settled := by
  induction hreaches with
  | refl => exact h
  | tail _ hstep ih => exact ih.step hstep

@[simp] theorem final_start : (start tokens).final = finalOf tokens := final_skipSoft _ _ _

theorem settled_start : (start tokens).Settled :=
  settled_skipSoft (kind_finalOf tokens) fun t ht => by simpa using mem_takeWhile_imp ht

/-- The cursor before tokens that end with the end of the program. -/
theorem start_eq {body} (hfinal : final.kind = .eof) (hbody : ∀ t ∈ body, t.kind ≠ .eof)
    (hhead : ∀ t ∈ body.head?, t.kind ≠ .softNewline) :
    start (body ++ [final]) = ⟨[], body, final⟩ := by
  have hends : finalOf (body ++ [final]) = final := by
    have hnone : body.find? (·.kind = .eof) = none := by
      rw [find?_eq_none]
      simpa using hbody
    rw [finalOf, find?_append, hnone, Option.none_or, find?_singleton,
      if_pos (by simpa using hfinal)]
  have htakes : (body ++ [final]).takeWhile (·.kind ≠ .eof) = body := by
    rw [takeWhile_append_of_pos (by simpa using hbody), takeWhile_cons_of_neg (by simpa),
      append_nil]
  rw [start, hends, htakes]
  cases body with
  | nil => rfl
  | cons t later => exact if_neg (hhead t rfl)

theorem Settled.rest_eq_nil_iff (h : c.Settled) : c.rest = [] ↔ c.kind = .eof := by
  unfold kind current
  cases hrest : c.rest with
  | nil => exact ⟨fun _ => h.final, fun _ => rfl⟩
  | cons t rest =>
    exact ⟨nofun, fun heof => absurd heof (h.rest t (hrest ▸ mem_cons_self))⟩

/-! ## Skipping -/

theorem skipNewlines_cons {taken} (h : t.kind = .newline ∨ t.kind = .softNewline) :
    skipNewlines ⟨taken, t :: rest, final⟩ = skipNewlines ⟨t :: taken, rest, final⟩ := by
  have ht : (t.kind = .newline || t.kind = .softNewline) = true := by simpa using h
  simp only [skipNewlines, takeWhile_cons, ht, if_true, reverse_cons, append_assoc,
    length_cons, drop_succ_cons, cons_append, nil_append]

theorem skipNewlines_skipSoft {taken} : ∀ rest : List Token,
    (skipSoft taken final rest).skipNewlines = skipNewlines ⟨taken, rest, final⟩
  | [] => rfl
  | t :: rest => by
    unfold skipSoft
    split
    · next h => rw [skipNewlines_skipSoft rest, skipNewlines_cons (.inr h)]
    · rfl

theorem skipNewlines_of_kind_ne (h : c.Settled) (hkind : c.kind ≠ .newline) :
    c.skipNewlines = c := by
  obtain ⟨taken, rest, final⟩ := c
  cases rest with
  | nil => rfl
  | cons t rest =>
    have ht : (t.kind = .newline || t.kind = .softNewline) = false := by
      simpa using ⟨hkind, h.head t rfl⟩
    simp only [skipNewlines, takeWhile_cons, ht, Bool.false_eq_true, if_false,
      reverse_nil, nil_append, length_nil, drop_zero]

theorem skipNewlines_of_newline (h : c.Settled) (hkind : c.kind = .newline) :
    c.rest ≠ [] ∧ c.skipNewlines = c.advance.skipNewlines := by
  have hrest : c.rest ≠ [] := fun hnil => by
    rw [h.rest_eq_nil_iff.mp hnil] at hkind
    cases hkind
  refine ⟨hrest, ?_⟩
  obtain ⟨taken, rest, final⟩ := c
  obtain ⟨t, rest, rfl⟩ := exists_cons_of_ne_nil hrest
  exact (skipNewlines_cons (.inl hkind)).trans (skipNewlines_skipSoft rest).symm

/-- Line breaks are skipped one by one. -/
theorem reaches_skipNewlines : ∀ {c}, c.Settled → Reaches c c.skipNewlines
  | c, h => by
    by_cases hkind : c.kind = .newline
    · obtain ⟨hrest, heq⟩ := skipNewlines_of_newline h hkind
      rw [heq]
      exact .head (.advance hrest) (reaches_skipNewlines h.advance)
    · rw [skipNewlines_of_kind_ne h hkind]
termination_by c => c.weight
decreasing_by exact weight_advance_lt hrest

/-- Behind skipped line breaks there is no line break. -/
theorem kind_skipNewlines : ∀ {c : Cursor}, c.Settled → c.skipNewlines.kind ≠ .newline
  | c, h => by
    by_cases hkind : c.kind = .newline
    · obtain ⟨hrest, heq⟩ := skipNewlines_of_newline h hkind
      rw [heq]
      exact kind_skipNewlines h.advance
    · rwa [skipNewlines_of_kind_ne h hkind]
termination_by c => c.weight
decreasing_by exact weight_advance_lt hrest

theorem skipStatement_cons {taken} (hnewline : t.kind ≠ .newline) (hdedent : t.kind ≠ .dedent) :
    skipStatement ⟨taken, t :: rest, final⟩ = skipStatement ⟨t :: taken, rest, final⟩ := by
  have ht : (t.kind ≠ .newline && t.kind ≠ .dedent) = true := by simpa using ⟨hnewline, hdedent⟩
  simp only [skipStatement, takeWhile_cons, ht, if_true, reverse_cons, append_assoc,
    length_cons, drop_succ_cons, cons_append, nil_append]

theorem skipStatement_skipSoft {taken} : ∀ rest : List Token,
    (skipSoft taken final rest).skipStatement = skipStatement ⟨taken, rest, final⟩
  | [] => rfl
  | t :: rest => by
    unfold skipSoft
    split
    · next h =>
      rw [skipStatement_skipSoft rest, skipStatement_cons (by rw [h]; decide) (by rw [h]; decide)]
    · rfl

theorem skipStatement_of_kind_ne (h : c.rest ≠ []) (hnewline : c.kind ≠ .newline)
    (hdedent : c.kind ≠ .dedent) : c.skipStatement = c.advance.skipStatement := by
  obtain ⟨taken, rest, final⟩ := c
  obtain ⟨t, rest, rfl⟩ := exists_cons_of_ne_nil h
  exact (skipStatement_cons hnewline hdedent).trans (skipStatement_skipSoft rest).symm

/-- The end of a statement, or of what is left, is not skipped. -/
theorem skipStatement_of_kind (h : c.rest = [] ∨ c.kind = .newline ∨ c.kind = .dedent) :
    c.skipStatement = if c.kind = .newline then c.advance else c := by
  obtain ⟨taken, rest, final⟩ := c
  cases rest with
  | nil => rfl
  | cons t rest =>
    have ht : (t.kind ≠ .newline && t.kind ≠ .dedent) = false := by
      rcases h with h | h | h
      · cases h
      · rw [show t.kind = .newline from h]
        rfl
      · rw [show t.kind = .dedent from h]
        rfl
    simp only [skipStatement, takeWhile_cons, ht, Bool.false_eq_true, if_false,
      reverse_nil, nil_append, length_nil, drop_zero]

/-- To skip a statement is to take steps. -/
theorem reaches_skipStatement : ∀ {c}, c.Settled → Reaches c c.skipStatement
  | c, h => by
    by_cases hrest : c.rest = []
    · have hkind : c.kind ≠ .newline := by
        rw [h.rest_eq_nil_iff.mp hrest]
        nofun
      rw [skipStatement_of_kind (.inl hrest), if_neg hkind]
    · by_cases hnewline : c.kind = .newline
      · rw [skipStatement_of_kind (.inr (.inl hnewline)), if_pos hnewline]
        exact .single (.advance hrest)
      · by_cases hdedent : c.kind = .dedent
        · rw [skipStatement_of_kind (.inr (.inr hdedent)), if_neg hnewline]
        · rw [skipStatement_of_kind_ne hrest hnewline hdedent]
          exact .head (.advance hrest) (reaches_skipStatement h.advance)
termination_by c => c.weight
decreasing_by exact weight_advance_lt hrest

/-- What is not the end of a statement is skipped. -/
theorem weight_skipStatement_lt (h : c.Settled) (hnewline : c.kind ≠ .newline)
    (hdedent : c.kind ≠ .dedent) (heof : c.kind ≠ .eof) : c.skipStatement.weight < c.weight := by
  have hrest : c.rest ≠ [] := fun hnil => heof (h.rest_eq_nil_iff.mp hnil)
  rw [skipStatement_of_kind_ne hrest hnewline hdedent]
  exact Nat.lt_of_le_of_lt (reaches_skipStatement h.advance).weight_le (weight_advance_lt hrest)

end Cursor

end Offside
