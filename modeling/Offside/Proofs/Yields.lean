import Offside.Proofs.Reading

/-!
# Proofs/Yields — parsers led through tokens

A parser yields a value from some tokens if it gives that value wherever just these are left, and
leaves those that it does not need (`Yields`).  This is put together along the parser: one part
takes up the tokens that the part before has left, and a repetition goes through rounds (`Rounds`).
A run that meets a bound is let pass on the way; that none does is known of whole programs.
-/

namespace Offside

open List Offside.Parser Cursor

variable {closer : Token.Kind}

namespace Parser

variable {α : Type}

/-! ## Tokens ahead -/

/-- The kind of the first of some tokens, or of the end that they stand before. -/
def headKind (tokens : List Token) : Token.Kind := (tokens.head?.map (·.kind)).getD .eof

@[simp] theorem headKind_cons (t : Token) (tokens : List Token) :
    headKind (t :: tokens) = t.kind := rfl

/-- The state is before just these tokens, and none of them is a soft line break. -/
structure State.At (tokens : List Token) (s : State) : Prop where
  final : s.cursor.final.kind = .eof
  rest : s.cursor.rest = tokens
  plain : ∀ t ∈ tokens, t.kind ≠ .eof ∧ t.kind ≠ .softNewline

namespace State.At

variable {s : State} {t : Token} {tokens : List Token}

theorem kind (h : s.At tokens) : s.cursor.kind = headKind tokens := by
  unfold Cursor.kind Cursor.current
  rw [h.rest]
  cases tokens with
  | nil => exact h.final
  | cons t tokens => rfl

theorem current (h : s.At (t :: tokens)) : s.cursor.current = t := by
  unfold Cursor.current
  rw [h.rest]
  rfl

theorem settled (h : s.At tokens) : s.cursor.Settled :=
  ⟨h.final, fun t ht => (h.plain t (h.rest ▸ ht)).1,
    fun t ht => (h.plain t (h.rest ▸ mem_of_mem_head? ht)).2⟩

theorem advance (h : s.At (t :: tokens)) : State.At tokens ⟨s.cursor.advance, s.reports⟩ := by
  have hplain : ∀ u ∈ tokens, u.kind ≠ .eof ∧ u.kind ≠ .softNewline := fun u hu =>
    h.plain u (mem_cons_of_mem _ hu)
  have hadvance : s.cursor.advance = ⟨t :: s.cursor.taken, tokens, s.cursor.final⟩ := by
    unfold Cursor.advance
    rw [h.rest]
    dsimp only
    cases tokens with
    | nil => rfl
    | cons u tokens => exact if_neg (hplain u mem_cons_self).2
  exact ⟨by rw [hadvance]; exact h.final, by rw [hadvance], hplain⟩

end State.At

/-- Where just the tokens `before` are left, the parser gives `a`, reports nothing and leaves
`after`. -/
def Yields (p : Parser α) (before : List Token) (a : α) (after : List Token) : Prop :=
  ∀ s : State, s.At before → (∃ t, p s = .error .endless t) ∨
    ∃ t : State, p s = .ok a t ∧ t.At after ∧ t.reports = s.reports

/-- A round of a repetition after the other, up to one that gives nothing. -/
inductive Rounds (round : α → Parser (Option α)) : α → List Token → α → List Token → Prop
  | done {a before after} (h : Yields (round a) before none after) : Rounds round a before a after
  | step {a a' b before mid after} (h : Yields (round a) before (some a') mid)
    (hlater : Rounds round a' mid b after) : Rounds round a before b after

/-- Items with commas between them, each with its tokens. -/
inductive Separated (Item : α → List Token → Prop) : List α → List Token → Prop
  | none : Separated Item [] []
  | one {a tokens} (h : Item a tokens) : Separated Item [a] tokens
  | more {a b items comma tokens later} (h : Item a tokens) (hcomma : comma.kind = .comma)
    (hlater : Separated Item (b :: items) later) :
    Separated Item (a :: b :: items) (tokens ++ comma :: later)

namespace Yields

variable {β : Type} {a : α} {b : β} {before mid after tokens : List Token} {t : Token}
  {k : Token.Kind} {p q : Parser α}

/-! ## Single steps -/

theorem pure : Yields (Pure.pure a) tokens a tokens := fun s hs => .inr ⟨s, rfl, hs, rfl⟩

theorem endless : Yields endless before a after := fun s _ => .inl ⟨s, rfl⟩

theorem bind {f} (hp : Yields p before a mid) (hf : Yields (f a) mid b after) :
    Yields (p >>= f) before b after := by
  intro s hs
  rcases hp s hs with ⟨u, hu⟩ | ⟨u, hu, hat, hreports⟩
  · exact .inl ⟨u, bind_of_error hu⟩
  · rw [bind_of_ok hu]
    rcases hf u hat with hend | ⟨v, hv, hat', hreports'⟩
    · exact .inl hend
    · exact .inr ⟨v, hv, hat', hreports'.trans hreports⟩

theorem kind {g} (h : Yields (g (headKind before)) before a after) :
    Yields (kind >>= g) before a after := by
  intro s hs
  rw [kind_bind, hs.kind]
  exact h s hs

theorem at?_pos (hk : headKind before = k) (h : Yields p before a after) :
    Yields (at? k >>= fun found => if found = true then p else q) before a after := by
  intro s hs
  rw [at?_of_kind (hs.kind.trans hk)]
  exact h s hs

theorem at?_neg (hk : headKind before ≠ k) (h : Yields q before a after) :
    Yields (at? k >>= fun found => if found = true then p else q) before a after := by
  intro s hs
  rw [at?_of_kind_ne (hs.kind ▸ hk)]
  exact h s hs

theorem ite_neg {c : Prop} [Decidable c] (hc : ¬c)
    (h : Yields q before a after) : Yields (if c then p else q) before a after := by
  rwa [if_neg hc]

theorem take : Yields take (t :: tokens) t tokens := fun s hs =>
  .inr ⟨_, by rw [Parser.take, hs.current], hs.advance, rfl⟩

theorem expect {fault} (hk : t.kind = k) :
    Yields (expect k fault) (t :: tokens) t tokens := at?_pos hk take

theorem accept_pos (hk : t.kind = k) : Yields (accept k) (t :: tokens) true tokens :=
  at?_pos hk (take.bind pure)

theorem accept_neg (hk : headKind tokens ≠ k) : Yields (accept k) tokens false tokens :=
  at?_neg hk pure

/-! ## Repetition -/

theorem iterateUpTo {round b} (h : Rounds round a before b after) :
    ∀ n, Yields (iterateUpTo round n a) before b after := by
  induction h with
  | done h =>
    intro n
    cases n with
    | zero => exact endless
    | succ n => exact h.bind pure
  | step h _ ih =>
    intro n
    cases n with
    | zero => exact endless
    | succ n => exact h.bind (ih n)

theorem iterate {round b} (h : Rounds round a before b after) :
    Yields (iterate round a) before b after := by
  cases h with
  | done h => exact h.bind pure
  | step h hlater => exact h.bind fun s hs => iterateUpTo hlater _ s hs

section Items

variable {Item : α → List Token → Prop} {item : List α → Parser α} {items : List α}

section

variable (hitem : ∀ earlier a later, items = earlier ++ a :: later → ∀ tokens after',
    Item a tokens → (headKind after' = .comma ∨ after' = after) →
      Yields (item earlier) (tokens ++ after') a after') (hafter : headKind after ≠ .comma)
include hitem hafter

/-- The items behind the first, each with the comma before it. -/
theorem rounds_commaSeparated {later} (h : Separated Item later tokens) :
    ∀ {earlier comma},
      items = earlier ++ later → later ≠ [] → comma.kind = .comma →
      Rounds (fun items => do
        if ← accept .comma then
          let next ← item items
          return some (items ++ [next])
        else
          return Option.none) earlier (comma :: (tokens ++ after)) items after := by
  induction h with
  | none => exact fun _ hne => absurd rfl hne
  | @one a tokens h =>
    intro earlier comma hitems _ hcomma
    have hlast := hitem earlier a [] hitems tokens after h (.inr rfl)
    refine .step ((accept_pos hcomma).bind (hlast.bind pure)) ?_
    rw [← hitems]
    exact .done ((accept_neg hafter).bind pure)
  | @more a b later comma' tokens tokens' h hcomma' _ ih =>
    intro earlier comma hitems _ hcomma
    have hnext := hitem earlier a _ hitems tokens (comma' :: (tokens' ++ after)) h (.inl hcomma')
    rw [append_assoc, cons_append]
    refine .step ((accept_pos hcomma).bind (hnext.bind pure)) ?_
    exact ih (by rw [hitems, append_assoc, singleton_append]) (cons_ne_nil _ _) hcomma'

theorem commaSeparated (h : Separated Item items tokens) (hne : items ≠ []) :
    Yields (commaSeparated item) (tokens ++ after) items after := by
  cases h with
  | none => exact absurd rfl hne
  | @one a tokens h =>
    exact (hitem [] a [] rfl tokens after h (.inr rfl)).bind
      (iterate (.done ((accept_neg hafter).bind pure)))
  | @more a b items comma tokens later h hcomma hlater =>
    have hfirst := hitem [] a _ rfl tokens (comma :: (later ++ after)) h (.inl hcomma)
    rw [append_assoc, cons_append]
    exact hfirst.bind (iterate (rounds_commaSeparated hitem hafter hlater rfl
      (cons_ne_nil _ _) hcomma))

end

theorem separator_comma (hk : t.kind = .comma) :
    Yields (separator closer) (t :: tokens) true tokens := (accept_pos hk).bind pure

/-- No item follows before the closing bracket. -/
theorem separator_closer (hk : headKind tokens = closer)
    (hcloser : closer ≠ .comma) : Yields (separator closer) tokens false tokens := by
  refine (accept_neg (hk ▸ hcloser)).bind fun s hs => .inr ⟨s, ?_, hs, rfl⟩
  have hkind : s.cursor.kind = closer := hs.kind.trans hk
  simp [see, hkind]

variable (hitem : ∀ earlier a later, items = earlier ++ a :: later → ∀ tokens after',
    Item a tokens → (headKind after' = .comma ∨ after' = after) →
      headKind (tokens ++ after') ≠ closer ∧ Yields (item earlier) (tokens ++ after') a after')
  (hafter : headKind after = closer) (hcloser : closer ≠ .comma)
include hitem hafter hcloser

/-- The items of a literal from one that has to come. -/
theorem rounds_elements {later} (h : Separated Item later tokens) : ∀ {earlier},
      items = earlier ++ later → later ≠ [] →
      Rounds (fun (found : List α × Bool) => do
        if !found.2 || (← at? closer) then return Option.none
        let next ← item found.1
        let more ← separator closer
        return some (found.1 ++ [next], more)) (earlier, true) (tokens ++ after) (items, false)
        after := by
  induction h with
  | none => exact fun _ hne => absurd rfl hne
  | @one a tokens h =>
    intro earlier hitems _
    obtain ⟨hfirst, hlast⟩ := hitem earlier a [] hitems tokens after h (.inr rfl)
    refine .step (at?_neg hfirst (hlast.bind ((separator_closer hafter hcloser).bind pure))) ?_
    rw [← hitems]
    exact .done pure
  | @more a b later comma tokens tokens' h hcomma _ ih =>
    intro earlier hitems _
    obtain ⟨hfirst, hnext⟩ :=
      hitem earlier a _ hitems tokens (comma :: (tokens' ++ after)) h (.inl hcomma)
    rw [append_assoc, cons_append]
    refine .step (at?_neg hfirst (hnext.bind ((separator_comma hcomma).bind pure))) ?_
    exact ih (by rw [hitems, append_assoc, singleton_append]) (cons_ne_nil _ _)

theorem elements (h : Separated Item items tokens) :
    Yields (elements closer item) (tokens ++ after) items after := by
  by_cases hne : items = []
  · subst hne
    cases h
    exact (iterate (.done (at?_pos hafter pure))).bind pure
  · exact (iterate (rounds_elements hitem hafter hcloser h rfl hne)).bind pure

end Items

/-! ## Statements and programs -/

theorem recover (h : Yields p before a after) : Yields (recover p) before (some a) after := by
  intro s hs
  unfold Parser.recover
  rcases h s hs with ⟨u, hu⟩ | ⟨u, hu, hat, hreports⟩
  · rw [hu]
    exact .inl ⟨u, rfl⟩
  · rw [hu]
    exact .inr ⟨u, rfl, hat, hreports⟩

/-- A cursor that does not have to move stays. -/
theorem move {f} (h : ∀ s : State, s.At tokens → f s.cursor = s.cursor) :
    Yields (move f) tokens () tokens := fun s hs =>
  .inr ⟨s, by rw [Parser.move, h s hs], hs, rfl⟩

theorem skipNewlines (h : headKind tokens ≠ .newline) :
    Yields (Parser.move skipNewlines) tokens () tokens :=
  .move fun _ hs => skipNewlines_of_kind_ne hs.settled (hs.kind ▸ h)

/-- A keyword that leads a statement, and what is left of the name that it was read with. -/
theorem splitLeadingWord {words} (h : leadingWord t = words) :
    Yields (Parser.move splitLeadingWord) (t :: tokens) () (words ++ tokens) := by
  intro s hs
  have hrest : s.cursor.splitLeadingWord = { s.cursor with rest := words ++ tokens } := by
    unfold Cursor.splitLeadingWord
    rw [hs.rest]
    dsimp only
    rw [h]
  obtain ⟨ht, htokens⟩ := forall_mem_cons.mp hs.plain
  have hwords : ∀ w ∈ words, w.kind ≠ .eof ∧ w.kind ≠ .softNewline := by
    rw [← h]
    rcases leadingWord_cases t with hself | ⟨-, k, -, hkeyword⟩ |
      ⟨-, k, first, joiner, later, -, -, -, -, hsplit⟩
    · rw [hself]
      exact forall_mem_singleton.mpr ht
    · rw [hkeyword]
      simp
    · rw [hsplit]
      simp
  refine .inr ⟨⟨s.cursor.splitLeadingWord, s.reports⟩, rfl, ?_, rfl⟩
  rw [hrest]
  exact ⟨hs.final, rfl, forall_mem_append.mpr ⟨hwords, htokens⟩⟩

/-- The kind of the token behind the first. -/
theorem nextKind? {g} (h : Yields (g (tokens.head?.map (·.kind))) (t :: tokens) a after) :
    Yields (see nextKind? >>= g) (t :: tokens) a after := by
  intro s hs
  have hnext : s.cursor.nextKind? = tokens.head?.map (·.kind) := by
    unfold Cursor.nextKind?
    rw [hs.rest, drop_succ_cons, drop_zero]
    cases tokens with
    | nil => rfl
    | cons u tokens =>
      have hu := (hs.plain u (mem_cons_of_mem _ mem_cons_self)).2
      rw [find?_cons_of_pos (by simpa using hu)]
      rfl
  change (∃ u, g s.cursor.nextKind? s = _) ∨ ∃ u, g s.cursor.nextKind? s = _ ∧ _
  rw [hnext]
  exact h s hs

/-- A program of one statement. -/
theorem program {n : Nested} {statement : Stmt}
    (hstart : headKind tokens ∉ [.newline, .eof, .dedent])
    (h : Yields (n.statement false) tokens statement []) :
    Yields n.program tokens [statement] [] := by
  simp only [mem_cons, not_mem_nil, or_false, not_or] at hstart
  obtain ⟨hnewline, heof, hdedent⟩ := hstart
  have hround : Yields (n.programRound []) tokens (some [statement]) [] :=
    (skipNewlines hnewline).bind (at?_neg heof ((accept_neg hdedent).bind ((recover h).bind pure)))
  have hlast : Yields (n.programRound [statement]) [] none [] :=
    (skipNewlines (by decide)).bind (at?_pos rfl pure)
  exact iterate (.step hround (.done hlast))

end Yields

end Parser

/-- **What is yielded from all its tokens is the program.** -/
theorem Parsed.program?_of_yields {tokens final program}
    (hplain : ∀ t ∈ tokens, t.kind ≠ .eof ∧ t.kind ≠ .softNewline) (hfinal : final.kind = .eof)
    (h : ∀ depth, (nested depth).program.Yields tokens program []) :
    (ofTokens (tokens ++ [final])).program? = some program := by
  have hstart : start (tokens ++ [final]) = ⟨[], tokens, final⟩ :=
    start_eq hfinal (fun t ht => (hplain t ht).1) fun t ht =>
      (hplain t (mem_of_mem_head? ht)).2
  obtain ⟨statements, s, hok, -⟩ := Nested.exists_program_eq_ok
    (s := ⟨start (tokens ++ [final]), []⟩) (settled_start _)
    (Nat.le_succ (2 * (start (tokens ++ [final])).weight + 1))
  have hat : State.At tokens ⟨start (tokens ++ [final]), []⟩ := by
    rw [hstart]
    exact ⟨hfinal, rfl, hplain⟩
  rcases h _ _ hat with ⟨u, hu⟩ | ⟨u, hu, -, hreports⟩
  · cases hok.symm.trans hu
  · simp only [ofTokens, hu, program?, hreports, reverse_nil, isEmpty_nil, Bool.and_self, if_true]

end Offside
