import Offside.Proofs.Records
import Offside.Proofs.Steps

/-!
# Proofs/Copying — tokens that are left, and tokens said to be elsewhere

What holds of the tokens that are left to a cursor, and of the parts that a name is split or cut
down to, holds wherever the cursor goes (`Left.reaches`).  Where the line breaks are said to be
elsewhere a cursor goes the same way, since it only looks at the kinds of tokens.
-/

namespace Offside

open List
open Token.Scan (layoutKinds)

/-! ## Tokens that are left -/

/-- Holds of the parts that a name is split or cut down to. -/
structure Token.Hereditary (T : Token → Prop) : Prop where
  cut : ∀ t, T t → t.kind = .identifier →
    T { t with lexeme := String.ofList t.lexeme.toList.dropLast }
  split : ∀ t, T t → ∀ u ∈ Cursor.leadingWord t, T u

namespace Cursor

/-- Holds of the tokens that are left. -/
def Left (T : Token → Prop) (c : Cursor) : Prop := (∀ t ∈ c.rest, T t) ∧ T c.final

variable {T : Token → Prop} {c c' : Cursor}

theorem Left.current (h : Left T c) : T c.current := by
  unfold Cursor.current
  cases hr : c.rest with
  | nil => exact h.2
  | cons t rest => exact h.1 t (hr ▸ mem_cons_self)

theorem Left.skipSoft {taken final} :
    ∀ {rest}, (∀ t ∈ rest, T t) → T final → Left T (skipSoft taken final rest)
  | [], h, hf => ⟨h, hf⟩
  | t :: rest, h, hf => by
    unfold Cursor.skipSoft
    split
    · exact Left.skipSoft (fun t ht => h t (mem_cons_of_mem _ ht)) hf
    · exact ⟨h, hf⟩

/-- What is passed on by splitting a word holds of the tokens left behind a step. -/
theorem Left.step (h : Left T c) (hT : Token.Hereditary T) (hstep : Step c c') : Left T c' := by
  cases hstep with
  | advance =>
    unfold Cursor.advance
    split
    · exact h
    · next t rest hr => exact .skipSoft (fun t ht => h.1 t (hr ▸ mem_cons_of_mem _ ht)) h.2
  | split =>
    unfold Cursor.splitLeadingWord
    split
    · exact h
    · next t rest hr =>
      rw [Left, hr] at h
      obtain ⟨ht, hrest⟩ := forall_mem_cons.mp h.1
      exact ⟨forall_mem_append.mpr ⟨hT.split t ht, hrest⟩, h.2⟩

/-- It holds of the tokens left wherever the cursor gets to. -/
theorem Left.reaches (h : Left T c) (hT : Token.Hereditary T) (hreaches : Reaches c c') :
    Left T c' := by
  induction hreaches with
  | refl => exact h
  | tail _ hstep ih => exact ih.step hT hstep

end Cursor

/-! ## Line breaks said to be elsewhere -/

section

variable (g : Position → Position)

/-- The kinds of the tokens for line breaks. -/
def Token.lineBreaks : List Token.Kind := [.newline, .softNewline]

/-- A token, with another place if it is a line break. -/
def Token.moved (t : Token) : Token :=
  { t with position := if t.kind ∈ Token.lineBreaks then g t.position else t.position }

/-- A cursor, with other places for line breaks. -/
def Cursor.moved (c : Cursor) : Cursor :=
  ⟨c.taken.map (Token.moved g), c.rest.map (Token.moved g), c.final.moved g⟩

end

variable {g : Position → Position}

theorem Token.keyword_notMem_layoutKinds (k : Keyword) : Token.Kind.keyword k ∉ layoutKinds := by
  simp [layoutKinds]

@[simp] theorem Token.kind_moved (t : Token) : (t.moved g).kind = t.kind := rfl

theorem Token.moved_of_notMem {t : Token} (h : t.kind ∉ layoutKinds) : t.moved g = t := by
  have hbreak : t.kind ∉ lineBreaks := fun hmem =>
    h ((show lineBreaks ⊆ layoutKinds by decide) hmem)
  rw [moved, if_neg hbreak]

namespace Cursor

variable (c : Cursor)

@[simp] theorem current_moved : (c.moved g).current = c.current.moved g := by
  unfold current moved
  cases c.rest <;> rfl

@[simp] theorem kind_moved : (c.moved g).kind = c.kind := by
  rw [kind, current_moved]
  rfl

/-- Moving line breaks commutes with skipping soft ones. -/
theorem skipSoft_moved (final : Token) : ∀ (rest taken : List Token),
    skipSoft (taken.map (Token.moved g)) (final.moved g) (rest.map (Token.moved g))
      = (skipSoft taken final rest).moved g
  | [], _ => rfl
  | t :: rest, taken => by
    rw [map_cons, skipSoft, skipSoft, Token.kind_moved]
    by_cases h : t.kind = .softNewline
    · rw [if_pos h, if_pos h]
      exact skipSoft_moved final rest (t :: taken)
    · rw [if_neg h, if_neg h]
      rfl

@[simp] theorem advance_moved : (c.moved g).advance = c.advance.moved g := by
  obtain ⟨taken, rest, final⟩ := c
  cases rest with
  | nil => rfl
  | cons t rest => exact skipSoft_moved final rest (t :: taken)

theorem takeWhile_moved {p : Token.Kind → Bool} (tokens : List Token) :
    (tokens.map (Token.moved g)).takeWhile (p ·.kind)
      = (tokens.takeWhile (p ·.kind)).map (Token.moved g) :=
  takeWhile_map

@[simp] theorem skipNewlines_moved : (c.moved g).skipNewlines = c.skipNewlines.moved g := by
  have hbreaks := takeWhile_moved (g := g) (p := fun k => k = .newline || k = .softNewline) c.rest
  simp only [skipNewlines, moved, hbreaks, map_append, map_reverse, map_drop, length_map]

/-- Where a statement ends does not depend on where line breaks are said to be. -/
@[simp] theorem skipStatement_moved : (c.moved g).skipStatement = c.skipStatement.moved g := by
  have hskipped := takeWhile_moved (g := g) (p := fun k => k ≠ .newline && k ≠ .dedent) c.rest
  let skipped := c.rest.takeWhile fun t => t.kind ≠ .newline && t.kind ≠ .dedent
  let stopped : Cursor := ⟨skipped.reverse ++ c.taken, c.rest.drop skipped.length, c.final⟩
  have hstopped : (c.moved g).skipStatement = if (stopped.moved g).kind = .newline
      then (stopped.moved g).advance else stopped.moved g := by
    simp only [skipStatement, stopped, skipped, moved, hskipped, map_append, map_reverse,
      map_drop, length_map]
  rw [hstopped, kind_moved, advance_moved]
  exact (apply_ite (moved g) _ _ _).symm

/-- A token that is moved is split into the same words, moved. -/
@[simp] theorem leadingWord_moved (t : Token) :
    leadingWord (t.moved g) = (leadingWord t).map (Token.moved g) := by
  by_cases hkind : t.kind = .identifier
  · have hsame : ∀ u ∈ leadingWord t, u.moved g = u := by
      intro u hu
      refine Token.moved_of_notMem ?_
      rcases leadingWord_cases t with heq | ⟨-, k, -, heq⟩ | ⟨-, k, _, _, _, -, -, -, -, heq⟩ <;>
        rw [heq] at hu
      · rw [mem_singleton.mp hu, hkind]
        decide
      · rw [mem_singleton.mp hu]
        exact Token.keyword_notMem_layoutKinds k
      · rcases mem_cons.mp hu with rfl | hu
        · exact Token.keyword_notMem_layoutKinds k
        · rw [mem_singleton.mp hu]
          exact (by decide : Token.Kind.identifier ∉ layoutKinds)
    rw [Token.moved_of_notMem (by rw [hkind]; decide), map_congr_left hsame, map_id']
  · rw [leadingWord, leadingWord, Token.kind_moved, if_pos hkind, if_pos hkind]
    rfl

@[simp] theorem splitLeadingWord_moved :
    (c.moved g).splitLeadingWord = c.splitLeadingWord.moved g := by
  obtain ⟨taken, rest, final⟩ := c
  cases rest with
  | nil => rfl
  | cons t rest =>
    simp [moved, splitLeadingWord, map_append]

theorem kind_find?_moved {p : Token.Kind → Bool} (tokens : List Token) :
    ((tokens.map (Token.moved g)).find? (p ·.kind)).map (·.kind)
      = (tokens.find? (p ·.kind)).map (·.kind) := by
  rw [find?_map, Option.map_map]
  rfl

@[simp] theorem nextKind?_moved : (c.moved g).nextKind? = c.nextKind? := by
  rw [nextKind?, moved, ← map_drop]
  exact kind_find?_moved (p := fun k => k ≠ .softNewline) _

@[simp] theorem previousKind?_moved : (c.moved g).previousKind? = c.previousKind? :=
  kind_find?_moved (p := fun k => k ≠ .softNewline) _

@[simp] theorem afterSoftBreak_moved : (c.moved g).afterSoftBreak = c.afterSoftBreak := by
  unfold afterSoftBreak moved
  cases c.taken <;> rfl

@[simp] theorem weight_moved : (c.moved g).weight = c.weight := by
  unfold weight moved
  rw [foldr_map]
  rfl

end Cursor

/-! ## States of a parser -/

namespace Parser

section

variable (g) (T : Token → Prop)

/-- A refusal, with another place if it is at a line break. -/
def Refusal.moved (r : Refusal) : Refusal := { r with token := r.token.moved g }

/-- A report, with another place if it is at a line break. -/
def Report.moved (r : Report) : Report := { r with token := r.token.moved g }

/-- A state, with other places for line breaks. -/
def State.moved (s : State) : State := ⟨s.cursor.moved g, s.reports.map (Report.moved g)⟩

/-- Holds of the tokens that are left, of parts of them and of those that were reported. -/
structure State.Holds (s : State) : Prop where
  hereditary : Token.Hereditary T
  left : s.cursor.Left T
  reports : ∀ r ∈ s.reports, T r.token

/-- A token that may be kept: one of those that were left, and not layout. -/
structure Kept (t : Token) : Prop where
  holds : T t
  kind : t.kind ∉ layoutKinds

end

theorem State.holds_true (s : State) : s.Holds fun _ => True :=
  ⟨⟨fun _ _ _ => trivial, fun _ _ _ _ => trivial⟩, ⟨fun _ _ => trivial, trivial⟩,
    fun _ _ => trivial⟩

variable {T : Token → Prop} {s : State}

theorem State.Holds.reaches (h : s.Holds T) {c} (hreaches : Cursor.Reaches s.cursor c) :
    State.Holds T ⟨c, s.reports⟩ :=
  ⟨h.hereditary, h.left.reaches h.hereditary hreaches, h.reports⟩

theorem Kept.moved {t} (h : Kept T t) : t.moved g = t := Token.moved_of_notMem h.kind

end Parser

end Offside
