import Mathlib.Data.Nat.PSub
import Offside.Proofs.Respelling

/-!
# Proofs/Indentation — blocks and the tokens around them

A scan keeps the widths of the blocks that it opened.  It closes one only by dropping its width, and
all of them at the end (`Tallies.writes`, `exists_balanced_scan`), so in the tokens of a text every
block that is closed was opened, and the other way round.  Nesting the words of a program then
passes no mark over and has nothing left to close, and what it finds is the layout of the tree
(`blocks_of_program?`).
-/

namespace Offside

open List Token

namespace Token

/-! ## Depth -/

/-- How many blocks are open behind a token; none if it closes a block and there is none. -/
def deepen (depth : Nat) (t : Token) : Option Nat :=
  match t.kind with
  | .indent => some (depth + 1)
  | .dedent => depth.ppred
  | _ => some depth

theorem deepen_of_kind {t : Token} (h : t.kind ∉ [.indent, .dedent]) (depth : Nat) :
    t.deepen depth = some depth := by
  rw [mem_cons, mem_singleton, not_or] at h
  unfold deepen
  split
  · next hkind => exact absurd hkind h.1
  · next hkind => exact absurd hkind h.2
  · rfl

theorem foldlM_concat {tokens depth} (t : Token) (h : tokens.foldlM deepen 0 = some depth) :
    (tokens ++ [t]).foldlM deepen 0 = t.deepen depth := by
  rw [foldlM_append, h]
  exact bind_pure (t.deepen depth)

/-- As many tokens close as many blocks. -/
theorem foldlM_dedents (position : Position) (depth : Nat) : ∀ n : Nat,
    (replicate n ⟨.dedent, "", none, position⟩).foldlM deepen (n + depth) = some depth
  | 0 => by rw [Nat.zero_add]; rfl
  | n + 1 => by
    rw [replicate_succ, foldlM_cons, Nat.add_right_comm]
    exact foldlM_dedents position depth n

/-! ## Pieces -/

/-- The kinds of tokens that stand for the end of a text and for the blocks in it. -/
def blockKinds : List Kind := [.indent, .dedent, .eof]

/-- No piece of text opens or closes a block. -/
theorem cut_notMem_blockKinds {c text lexeme kind literal}
    (h : (cut c text).piece = .token kind lexeme literal) : kind ∉ blockKinds := by
  have hlayout : blockKinds ⊆ Scan.layoutKinds := by decide
  exact fun hmem => cut_notMem_layoutKinds h (hlayout hmem)

namespace Scan

/-! ## Scans -/

/-- The blocks that are open by their tokens are those whose widths are kept, and no token is an end
of input. -/
structure Tallies (s : Scan) : Prop where
  depth : s.tokens.reverse.foldlM deepen 0 = some s.levels.length
  kind_ne : ∀ t ∈ s.tokens, t.kind ≠ .eof

namespace Tallies

variable {s : Scan}

theorem emit (h : Tallies s) {kind} (hkind : kind ∉ blockKinds) (lexeme : String)
    (literal : Option Literal) (position : Position) :
    Tallies (s.emit kind lexeme literal position) := by
  refine ⟨?_, forall_mem_cons.mpr ⟨?_, h.kind_ne⟩⟩
  · change (_ :: s.tokens).reverse.foldlM deepen 0 = some s.levels.length
    rw [reverse_cons, foldlM_concat _ h.depth]
    exact deepen_of_kind (fun hmem => hkind (mem_append_left [Kind.eof] hmem)) _
  · rintro rfl
    exact hkind (by decide)

/-- **A scan closes only what is open, and keeps count of it.** -/
theorem writes {P s'} (h : Tallies s) (hw : Writes P s s') : Tallies s' := by
  induction hw with
  | same htokens _ hlevels =>
    exact ⟨by rw [htokens, hlevels]; exact h.depth, htokens ▸ h.kind_ne⟩
  | trans _ _ ih ih' => exact ih' (ih h)
  | faults | opener | closer => exact ⟨h.depth, h.kind_ne⟩
  | lineBreak hkind =>
    refine h.emit (fun hmem => ?_) _ _ _
    rcases mem_pair.mp hkind with rfl | rfl <;> revert hmem <;> decide
  | @indent s width _ _ =>
    refine ⟨?_, forall_mem_cons.mpr ⟨nofun, h.kind_ne⟩⟩
    change (_ :: s.tokens).reverse.foldlM deepen 0 = some (width :: s.levels).length
    rw [reverse_cons, foldlM_concat _ h.depth]
    rfl
  | @dedents s closed levels hlevels p _ =>
    refine ⟨?_, forall_mem_append.mpr ⟨fun t ht => ?_, h.kind_ne⟩⟩
    · change (_ ++ s.tokens).reverse.foldlM deepen 0 = some levels.length
      rw [reverse_append, foldlM_append, h.depth, reverse_replicate, hlevels, length_append]
      exact foldlM_dedents p _ _
    · rw [eq_of_mem_replicate ht]
      nofun
  | piece hpiece => exact h.emit (cut_notMem_blockKinds hpiece) _ _ _

theorem step (h : Tallies s) (hne : s.rest ≠ []) : Tallies s.step :=
  h.writes (writes_step (P := fun _ => True) hne fun _ _ => trivial)

/-- At the end of the text nothing is left open. -/
theorem finish (h : Tallies s) : ∃ closed : Scan, Tallies closed ∧ closed.levels = [] ∧
    ∃ final : Token, final.kind = .eof ∧ s.finish.tokens = final :: closed.tokens := by
  have hopen : Tallies s.reportOpen := ⟨h.depth, h.kind_ne⟩
  obtain ⟨closed, hwrites, hlevels, hfinish⟩ :=
    writes_finish (P := fun _ => True) (s := s) fun _ _ => ⟨trivial, trivial⟩
  exact ⟨closed, hopen.writes hwrites, hlevels, _, rfl, by rw [hfinish]; rfl⟩

end Tallies

end Scan

/-- **In the tokens of a text, the blocks that are closed are those that were opened**, and the end
of input is the last token only. -/
theorem exists_balanced_scan (text : List Char) : ∃ body final,
    (scan text).tokens = body ++ [final] ∧ final.kind = .eof ∧ (∀ t ∈ body, t.kind ≠ .eof) ∧
      body.foldlM deepen 0 = some 0 := by
  have hstart : Scan.Tallies (.start text) := ⟨rfl, forall_mem_nil _⟩
  have hcomplete : Scan.Tallies (Scan.start text).complete := hstart.writes
    (Scan.writes_complete (P := fun _ => True) fun _ _ => ⟨trivial, trivial⟩).1
  obtain ⟨closed, hclosed, hlevels, final, hfinal, htokens⟩ := hcomplete.finish
  refine ⟨closed.tokens.reverse, final, ?_, hfinal, ?_, ?_⟩
  · rw [scan_eq, Scan.toScanned, htokens, reverse_cons]
  · exact fun t ht => hclosed.kind_ne t (mem_reverse.mp ht)
  · rw [hclosed.depth, hlevels]
    rfl

theorem exists_eof_scan (text : List Char) : ∃ t ∈ (scan text).tokens, t.kind = .eof := by
  obtain ⟨body, final, htokens, hfinal, -⟩ := exists_balanced_scan text
  exact ⟨final, htokens ▸ mem_append_right body (mem_singleton_self final), hfinal⟩

end Token

/-! ## Matching marks -/

/-- How many blocks are open behind a mark; none if it closes a block and there is none. -/
def Mark.deepen (depth : Nat) : Mark → Option Nat
  | opening => some (depth + 1)
  | closing => depth.ppred
  | leaf _ | statement => some depth

/-- The layout that marks lead to, inside of what is open, if every mark that closes a block finds
one and none is left open. -/
def nest? (outer : List (List Layout)) (inside : List Layout) : List Mark → Option (List Layout)
  | [] => if outer.isEmpty then some inside else none
  | .leaf token :: marks => nest? outer (inside ++ [.leaf token]) marks
  | .statement :: marks => nest? outer (inside ++ [.statement]) marks
  | .opening :: marks => nest? (inside :: outer) [] marks
  | .closing :: marks =>
    match outer with
    | [] => none
    | found :: outer => nest? outer (found ++ [.block inside]) marks

/-- Marks that match are nested without passing any over. -/
theorem nest?_eq_some {marks} : ∀ {outer inside},
    marks.foldlM Mark.deepen outer.length = some 0 →
      nest? outer inside marks = some (nest outer inside marks) := by
  induction marks with
  | nil =>
    intro outer inside h
    obtain rfl : outer = [] := eq_nil_of_length_eq_zero (Option.some.inj h)
    rfl
  | cons mark marks ih =>
    intro outer inside h
    rw [foldlM_cons] at h
    cases mark with
    | leaf token | statement | opening => exact ih h
    | closing =>
      cases outer with
      | nil => cases h
      | cons found outer => exact ih h

/-- Only its token tells whether a word opens or closes a block. -/
@[simp] theorem Word.foldlM_marks (w : Word) (depth : Nat) :
    w.marks.foldlM Mark.deepen depth = w.token.deepen depth := by
  have hrole : w.role.marks.foldlM Mark.deepen depth = some depth := by
    cases w.role <;> rfl
  rw [marks, foldlM_append, hrole]
  change foldlM Mark.deepen depth _ = _
  split
  · next hkind =>
    rw [deepen, hkind]
    rfl
  · next hkind =>
    rw [deepen, hkind]
    exact bind_pure _
  · next hindent hdedent =>
    rw [deepen_of_kind (by simpa using ⟨hindent, hdedent⟩)]
    cases w.leaf? <;> rfl

/-- Line breaks inside of a line neither open nor close a block. -/
theorem foldlM_withoutSoft : ∀ (words : List Word) (depth : Nat),
    ((withoutSoft words).flatMap Word.marks).foldlM Mark.deepen depth
      = (words.map (·.token)).foldlM deepen depth
  | [], _ => rfl
  | w :: words, depth => by
    rw [map_cons, foldlM_cons]
    by_cases hw : w.token.kind = .softNewline
    · rw [withoutSoft_cons_soft hw, deepen_of_kind (by rw [hw]; decide)]
      exact foldlM_withoutSoft words depth
    · rw [withoutSoft_cons hw, flatMap_cons, foldlM_append, w.foldlM_marks]
      exact congrArg (w.token.deepen depth >>= ·) (funext (foldlM_withoutSoft words))

/-- A name that is spelled anew neither opens nor closes a block. -/
theorem Respelled.foldlM_tokens {tokens words} (h : Respelled tokens words) :
    ∀ depth, (words.map (·.token)).foldlM deepen depth = tokens.foldlM deepen depth := by
  have hname : ∀ {t : Token} (depth : Nat), t.kind = .identifier → t.deepen depth = some depth :=
    fun depth ht => deepen_of_kind (by rw [ht]; decide) depth
  induction h with
  | nil =>
    intro depth
    rfl
  | @same t _ _ _ _ ih =>
    intro depth
    exact congrArg (t.deepen depth >>= ·) (funext ih)
  | keyword _ ht _ _ ih =>
    intro depth
    rw [map_cons, foldlM_cons, foldlM_cons, hname depth ht]
    exact ih depth
  | split _ _ ht _ _ _ ih =>
    intro depth
    rw [map_cons, map_cons, foldlM_cons, foldlM_cons, hname depth ht]
    exact ih depth

/-- The words of a program that is read from a text are its tokens, up to the spelling of keywords;
the end of input is no word. -/
theorem exists_words_of_program? {text program}
    (h : (Parsed.ofTokens (scan text).tokens).program? = some program) :
    ∃ body final words, (scan text).tokens = body ++ [final] ∧ final.kind = .eof ∧
      Respelled body words ∧ DerivesProgram (withoutSoft words) program [] ∧
      body.foldlM deepen 0 = some 0 := by
  obtain ⟨body, final, hscan, hfinal, hbody, hdepth⟩ := exists_balanced_scan text
  obtain ⟨words, hsplits, -, hderives⟩ := exists_derivesProgram h
  have hrespelled := hsplits.respelled (hderives.orderly trivial)
  have hinput : (scan text).tokens.takeWhile (·.kind ≠ .eof) = body := by
    rw [hscan, takeWhile_append_of_pos (by simpa using hbody), takeWhile_cons_of_neg, append_nil]
    simpa using hfinal
  exact ⟨body, final, words, hscan, hfinal, hinput ▸ hrespelled, hderives, hdepth⟩

/-- **The blocks of an accepted program are those that the tokens of its text open and close**, in
the same order and nesting, and each statement is in the innermost block that is open at its first
word. -/
theorem blocks_of_program? {text : List Char} {program : List Stmt}
    (h : (Parsed.ofTokens (scan text).tokens).program? = some program) :
    ∃ body final words, (scan text).tokens = body ++ [final] ∧ final.kind = .eof ∧
      Respelled body words ∧ DerivesProgram (withoutSoft words) program [] ∧
      nest? [] [] ((withoutSoft words).flatMap Word.marks) = some (layoutBody program) := by
  obtain ⟨body, final, words, hscan, hfinal, hrespelled, hderives, hdepth⟩ :=
    exists_words_of_program? h
  refine ⟨body, final, words, hscan, hfinal, hrespelled, hderives, ?_⟩
  rw [← nest_of_derivesProgram hderives]
  refine nest?_eq_some ?_
  calc ((withoutSoft words).flatMap Word.marks).foldlM Mark.deepen 0
    _ = (words.map (·.token)).foldlM deepen 0 := foldlM_withoutSoft words 0
    _ = body.foldlM deepen 0 := hrespelled.foldlM_tokens 0
    _ = some 0 := hdepth

/-- Blocks of every kind: bodies of functions and of a loop, branches, and one that stands alone. -/
def nestedSource : String :=
  "fn f (a)\n  while a\n    if b\n      let b : fn (c)\n        c\n    elif c\n      break\n" ++
    "    else\n      return fn (c): c\n  a\n    b\nf\n"

theorem blocks_nestedSource : ∃ program,
    (Parsed.ofTokens (scan nestedSource.toList).tokens).program? = some program ∧
    ∃ body final words, (scan nestedSource.toList).tokens = body ++ [final] ∧
      final.kind = .eof ∧ Respelled body words ∧ DerivesProgram (withoutSoft words) program [] ∧
      nest? [] [] ((withoutSoft words).flatMap Word.marks) = some (layoutBody program) := by
  have hparses : (Parsed.ofTokens (scan nestedSource.toList).tokens).program?.isSome := by
    decide +kernel
  obtain ⟨program, hprogram⟩ := Option.isSome_iff_exists.mp hparses
  have hblocks := blocks_of_program? hprogram
  exact ⟨program, hprogram, hblocks⟩

end Offside
