import Offside.Proofs.Copying
import Offside.Proofs.Derivation

/-!
# Proofs/Spans — the words that are left

Words are read off the tokens that are left by giving each token its part, and by telling those
apart that lead a statement or a branch (`Splits`).  The words left to a cursor are led back over
its steps (`Ahead`): over a token that can play its part (`Admits`), and over line breaks.
-/

namespace Offside

open List Cursor

/-! ## Words of tokens -/

/-- Words read off tokens.  A token that leads may be told apart, and a keyword always leads. -/
inductive Splits : List Token → List Word → Prop
  | nil : Splits [] []
  | plain {t role rest words} (hrole : role.leads = false) (heof : t.kind ≠ .eof)
    (hkeyword : ∀ k, t.kind ≠ .keyword k) (hrest : Splits rest words) :
    Splits (t :: rest) (⟨t, role⟩ :: words)
  | leading {t first role more rest words} (hrole : role.leads = true) (heof : t.kind ≠ .eof)
    (hfirst : leadingWord t = first :: more) (hrest : Splits (more ++ rest) words) :
    Splits (t :: rest) (⟨first, role⟩ :: words)

/-- The words that a parser sees. -/
def withoutSoft (words : List Word) : List Word := words.filter (·.token.kind ≠ .softNewline)

variable {words : List Word} {rest read : List Token} {t final : Token} {w : Word}

theorem withoutSoft_cons (h : w.token.kind ≠ .softNewline) :
    withoutSoft (w :: words) = w :: withoutSoft words := filter_cons_of_pos (by simpa using h)

theorem withoutSoft_cons_soft (h : w.token.kind = .softNewline) :
    withoutSoft (w :: words) = withoutSoft words := filter_cons_of_neg (by simpa using h)

/-- A leading word need not have been told apart before. -/
theorem Splits.unsplit (h : Splits (leadingWord t ++ rest) words) (heof : t.kind ≠ .eof) :
    Splits (t :: rest) words := by
  obtain ⟨first, more, hfirst⟩ := exists_leadingWord t
  rw [hfirst, cons_append] at h
  cases h with
  | plain hrole _ hkeyword hrest =>
    obtain ⟨rfl, rfl⟩ := leadingWord_eq_of_not_keyword hfirst hkeyword
    exact .plain hrole heof hkeyword hrest
  | leading hrole _ hsame hrest =>
    rw [leadingWord_head hfirst] at hsame
    cases hsame
    exact .leading hrole heof hfirst hrest

theorem Splits.eq_nil (h : Splits [] words) : words = [] := by
  cases h
  rfl

/-- A token that is no name is the first word. -/
theorem Splits.head (h : Splits (t :: rest) words) (hkind : t.kind ≠ .identifier) :
    ∃ role words', words = ⟨t, role⟩ :: words' := by
  cases h with
  | plain _ _ _ _ => exact ⟨_, _, rfl⟩
  | leading _ _ hfirst _ =>
    rw [leadingWord_of_kind_ne hkind] at hfirst
    cases hfirst
    exact ⟨_, _, rfl⟩

/-- The words that are left at a cursor, where `read` is all tokens in the end. -/
structure Ahead (c : Cursor) (read : List Token) (words : List Word) : Prop where
  final : c.final.kind = .eof
  splits : Splits c.rest words
  read : c.taken.reverse ++ words.map (·.token) = read

namespace Ahead

variable {c : Cursor}

theorem eq_nil (h : Ahead c read words) (hkind : c.kind = .eof) : words = [] := by
  have hsplits := h.splits
  cases hrest : c.rest with
  | nil =>
    rw [hrest] at hsplits
    exact hsplits.eq_nil
  | cons t rest =>
    rw [Cursor.kind, Cursor.current, hrest] at hkind
    rw [hrest] at hsplits
    cases hsplits with
    | plain _ heof | leading _ heof => exact absurd hkind heof

theorem dedent (h : Ahead c read words) (hkind : c.kind = .dedent) :
    ∃ w later, withoutSoft words = w :: later ∧ w.token.kind = .dedent := by
  have hsplits := h.splits
  cases hrest : c.rest with
  | nil =>
    rw [Cursor.kind, Cursor.current, hrest, headD_nil, h.final] at hkind
    cases hkind
  | cons t rest =>
    rw [Cursor.kind, Cursor.current, hrest, headD_cons] at hkind
    rw [hrest] at hsplits
    obtain ⟨role, later, rfl⟩ := hsplits.head (by rw [hkind]; decide)
    exact ⟨⟨t, role⟩, withoutSoft later, withoutSoft_cons (by rw [hkind]; decide), hkind⟩

/-- Words behind the split of a word are words before it. -/
theorem splitLeadingWord (h : Ahead c.splitLeadingWord read words) : Ahead c read words := by
  unfold Cursor.splitLeadingWord at h
  split at h
  · exact h
  · next t rest hrest =>
    obtain ⟨hfinal, hsplits, hread⟩ := h
    refine ⟨hfinal, ?_, hread⟩
    rw [hrest]
    refine hsplits.unsplit fun heof => ?_
    rw [leadingWord_of_kind_ne (by rw [heof]; nofun)] at hsplits
    cases hsplits with
    | plain _ h | leading _ h => exact h heof

/-- Soft line breaks are skipped without a word. -/
theorem skipSoft {taken} : ∀ {rest},
    Ahead (skipSoft taken final rest) read words →
    ∃ before, Ahead ⟨taken, rest, final⟩ read before ∧ withoutSoft before = withoutSoft words
  | [], h => ⟨words, h, rfl⟩
  | t :: rest, h => by
    unfold Cursor.skipSoft at h
    split at h
    · next hsoft =>
      obtain ⟨before, ⟨hfinal, hsplits, hread⟩, hhard⟩ := skipSoft h
      refine ⟨⟨t, .inner⟩ :: before, ⟨hfinal, .plain rfl ?_ ?_ hsplits, ?_⟩, ?_⟩
      · rw [hsoft]
        decide
      · intro k hk
        rw [hsoft] at hk
        cases hk
      · rw [← hread, reverse_cons, append_assoc]
        rfl
      · rw [withoutSoft_cons_soft hsoft, hhard]
    · exact ⟨words, h, rfl⟩

end Ahead

namespace Cursor

/-- The token at the cursor leads as it is. -/
def Told (c : Cursor) : Prop := ∀ t ∈ c.rest.head?, leadingWord t = [t]

/-- The token at the cursor can play this part. -/
structure Admits (c : Cursor) (role : Role) : Prop where
  eof : c.kind ≠ .eof
  soft : c.kind ≠ .softNewline
  told : role.leads = true → c.Told
  keyword : role.leads = false → ∀ k, c.kind ≠ .keyword k

variable {c : Cursor} {role : Role}

theorem told_of_kind_ne (h : c.kind ≠ .identifier) : c.Told := by
  intro t ht
  refine leadingWord_of_kind_ne ?_
  rwa [kind, current, headD_eq_head?_getD, ht] at h

/-- An expression can begin here whose first word plays this part. -/
structure Starts (c : Cursor) (role : Role) : Prop where
  told : role.leads = true → c.Told
  typeName : role ≠ .typeName

theorem starts_inner (c : Cursor) : c.Starts .inner := ⟨nofun, nofun⟩

/-- Behind the split the first word leads as it is. -/
theorem told_splitLeadingWord (c : Cursor) : c.splitLeadingWord.Told := by
  unfold splitLeadingWord
  split
  · next hrest =>
    rw [Told, hrest]
    nofun
  · next t rest hrest =>
    obtain ⟨first, more, hfirst⟩ := exists_leadingWord t
    rw [Told, hfirst]
    rintro _ ⟨⟩
    exact leadingWord_head hfirst

/-- Whether a token of this kind is neither a name nor a keyword, nor passed over. -/
def isSymbol : Token.Kind → Bool
  | .identifier | .keyword _ | .softNewline | .eof => false
  | _ => true

/-- A symbol can play any part. -/
theorem admits_symbol (h : isSymbol c.kind = true) : c.Admits role where
  eof heof := by rw [heof] at h; cases h
  soft hsoft := by rw [hsoft] at h; cases h
  told _ := told_of_kind_ne fun hname => by rw [hname] at h; cases h
  keyword _ k hk := by rw [hk] at h; cases h

/-- Whether a token of this kind is a symbol, and not layout. -/
def isMark (k : Token.Kind) : Bool := isSymbol k && k ∉ Token.Scan.layoutKinds

theorem isMark_iff {k} : isMark k = true ↔ isSymbol k = true ∧ k ∉ Token.Scan.layoutKinds := by
  simp [isMark]

theorem admits_name (h : c.kind = .identifier) (htold : role.leads = true → c.Told) :
    c.Admits role where
  eof := by rw [h]; nofun
  soft := by rw [h]; nofun
  told := htold
  keyword _ := by rw [h]; nofun

theorem admits_keyword {k} (h : c.kind = .keyword k) (hrole : role.leads = true) :
    c.Admits role where
  eof := by rw [h]; nofun
  soft := by rw [h]; nofun
  told _ := told_of_kind_ne (by rw [h]; nofun)
  keyword hplain := by rw [hrole] at hplain; cases hplain

end Cursor

/-- The token at the cursor is the first word. -/
theorem Ahead.advance {c role} (h : Ahead c.advance read words) (hadmits : c.Admits role) :
    ∃ before, Ahead c read before ∧
      withoutSoft before = ⟨c.current, role⟩ :: withoutSoft words := by
  unfold Cursor.advance at h
  cases hrest : c.rest with
  | nil =>
    rw [hrest] at h
    refine absurd ?_ hadmits.eof
    rw [Cursor.kind, Cursor.current, hrest, headD_nil, h.final]
  | cons t rest =>
    have hcurrent : c.current = t := by rw [Cursor.current, hrest, headD_cons]
    rw [hrest] at h
    obtain ⟨before, ⟨hfinal, hsplits, hread⟩, hhard⟩ := h.skipSoft
    refine ⟨⟨t, role⟩ :: before, ⟨hfinal, ?_, ?_⟩, ?_⟩
    · rw [hrest]
      have heof : t.kind ≠ .eof := hcurrent ▸ hadmits.eof
      cases hrole : role.leads with
      | true =>
        have htold := hadmits.told hrole t (by rw [hrest]; rfl)
        exact .leading hrole heof htold hsplits
      | false => exact .plain hrole heof (hcurrent ▸ hadmits.keyword hrole) hsplits
    · rw [← hread, reverse_cons, append_assoc]
      rfl
    · rw [withoutSoft_cons (hcurrent ▸ hadmits.soft), hhard, hcurrent]

/-- Some line breaks come first. -/
def Breaks (before after : List Word) : Prop :=
  ∃ breaks : List Token, (∀ t ∈ breaks, t.kind = .newline) ∧
    before = breaks.map (⟨·, .inner⟩) ++ after

/-- Line breaks are skipped as breaks. -/
theorem Ahead.skipNewlines :
    ∀ {taken rest}, Ahead (Cursor.skipNewlines ⟨taken, rest, final⟩) read words →
    ∃ before, Ahead ⟨taken, rest, final⟩ read before ∧
      Breaks (withoutSoft before) (withoutSoft words)
  | _, [], h => ⟨words, h, [], nofun, rfl⟩
  | taken, t :: rest, h => by
    by_cases hskip : t.kind = .newline ∨ t.kind = .softNewline
    · rw [Cursor.skipNewlines_cons hskip] at h
      obtain ⟨before, ⟨hfinal, hsplits, hread⟩, breaks, hbreaks, hhard⟩ := skipNewlines h
      refine ⟨⟨t, .inner⟩ :: before, ⟨hfinal, .plain rfl ?_ ?_ hsplits, ?_⟩, ?_⟩
      · rcases hskip with hkind | hkind <;> rw [hkind] <;> nofun
      · rcases hskip with hkind | hkind <;> rw [hkind] <;> nofun
      · rw [← hread, reverse_cons, append_assoc]
        rfl
      · rcases hskip with hnewline | hsoft
        · refine ⟨t :: breaks, forall_mem_cons.mpr ⟨hnewline, hbreaks⟩, ?_⟩
          rw [withoutSoft_cons (by rw [hnewline]; nofun), hhard]
          rfl
        · exact ⟨breaks, hbreaks, by rw [withoutSoft_cons_soft hsoft, hhard]⟩
    · have hsame : Cursor.skipNewlines ⟨taken, t :: rest, final⟩ = ⟨taken, t :: rest, final⟩ := by
        have ht : (t.kind = .newline || t.kind = .softNewline) = false := by simpa using hskip
        simp only [Cursor.skipNewlines, takeWhile_cons, ht, Bool.false_eq_true, if_false,
          reverse_nil, nil_append, length_nil, drop_zero]
      rw [hsame] at h
      exact ⟨words, h, [], nofun, rfl⟩

end Offside
