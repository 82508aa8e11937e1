import Offside.Proofs.Brackets
import Offside.Proofs.Context

/-!
# Proofs/Enclosure — expressions inside brackets

The brackets of an expression are its own: behind it those are open that were open before it
(`enclosed_of_derives`).  So one that stands inside brackets stays inside them, and where layout
keeps clear of brackets no line ends in it and no block begins (`notMem_breakKinds_of_spans`).
-/

namespace Offside

open List Token
open Cursor (breakKinds)

/-- Whether a token of this kind is neither a bracket nor a part of the layout. -/
def Token.isPlain : Kind → Bool
  | .opening _ | .closing _ | .newline | .softNewline | .indent | .dedent => false
  | _ => true

namespace Token

variable {t : Token} {opened o : List Bracket}

theorem enclose_of_isPlain (h : isPlain t.kind = true) : t.enclose opened = some opened := by
  unfold enclose
  split
  case h_7 => rfl
  all_goals next hk => rw [hk] at h; cases h

theorem notMem_breakKinds_of_isPlain (h : isPlain t.kind = true) : t.kind ∉ breakKinds := by
  intro hmem
  simp only [breakKinds, mem_cons, not_mem_nil, or_false] at hmem
  rcases hmem with hk | hk | hk <;> rw [hk] at h <;> cases h

theorem enclose_of_mem_breakKinds (h : t.kind ∈ breakKinds) (hopened : opened ≠ []) :
    t.enclose opened = none := by
  simp only [breakKinds, mem_cons, not_mem_nil, or_false] at h
  rcases h with hk | hk | hk <;> rw [enclose, hk] <;> exact if_neg hopened

theorem eq_of_enclose_soft (h : t.kind = .softNewline) (ht : t.enclose opened = some o) :
    o = opened ∧ opened ≠ [] := by
  rw [enclose, h] at ht
  obtain ⟨hopened, hsame⟩ := Option.ite_none_left_eq_some.mp ht
  exact ⟨(Option.some.inj hsame).symm, hopened⟩

end Token

/-! ## Words -/

/-- Between these words lies what leaves the open brackets as they are, and no line ends in it and
no block begins, if it stands inside brackets and layout keeps clear of those. -/
def Enclosed (before after : List Word) : Prop := ∀ opened o : List Bracket, opened ≠ [] →
  (before.map (·.token)).foldlM enclose opened = some o → ∃ used, before = used ++ after ∧
    (∀ w ∈ used, w.token.kind ∉ breakKinds) ∧
    (used.map (·.token)).foldlM enclose opened = some opened

namespace Enclosed

variable {before mid after : List Word} {w opener closer : Word}

theorem refl (words : List Word) : Enclosed words words := fun _ _ _ _ => ⟨[], rfl, nofun, rfl⟩

theorem trans (h : Enclosed before mid) (h' : Enclosed mid after) : Enclosed before after := by
  intro opened o hopened hfold
  obtain ⟨used, rfl, hused, hkept⟩ := h opened o hopened hfold
  rw [map_append, foldlM_append, hkept] at hfold
  obtain ⟨used', rfl, hused', hkept'⟩ := h' opened o hopened hfold
  refine ⟨used ++ used', (append_assoc _ _ _).symm, forall_mem_append.mpr ⟨hused, hused'⟩, ?_⟩
  rw [map_append, foldlM_append, hkept]
  exact hkept'

theorem word (h : isPlain w.token.kind = true) : Enclosed (w :: after) after := by
  refine fun opened o _ _ => ⟨[w], rfl, ?_, ?_⟩
  · exact forall_mem_singleton.mpr (notMem_breakKinds_of_isPlain h)
  · exact (bind_pure _).trans (enclose_of_isPlain h)

theorem cons (h : isPlain w.token.kind = true) (hmid : Enclosed mid after) :
    Enclosed (w :: mid) after :=
  (word h).trans hmid

/-- Brackets around what keeps to them. -/
theorem pair {sort} (hopener : opener.token.kind = .opening sort)
    (hmid : Enclosed mid (closer :: after)) (hcloser : closer.token.kind = .closing sort) :
    Enclosed (opener :: mid) after := by
  intro opened o hopened hfold
  have hopens : opener.token.enclose opened = some (sort :: opened) := by rw [enclose, hopener]; rfl
  have hcloses : closer.token.enclose (sort :: opened) = some opened := by
    rw [enclose, hcloser]
    exact if_pos rfl
  rw [map_cons, foldlM_cons, hopens] at hfold
  obtain ⟨used, rfl, hused, hkept⟩ := hmid (sort :: opened) o (cons_ne_nil _ _) hfold
  refine ⟨opener :: (used ++ [closer]), by simp, ?_, ?_⟩
  · refine forall_mem_cons.mpr ⟨?_, forall_mem_append.mpr ⟨hused, forall_mem_singleton.mpr ?_⟩⟩
    · rw [hopener]
      cases sort <;> decide
    · rw [hcloser]
      cases sort <;> decide
  · rw [map_cons, foldlM_cons, hopens]
    change ((used ++ [closer]).map (·.token)).foldlM enclose (sort :: opened) = _
    rw [map_append, foldlM_append, hkept]
    exact (bind_pure _).trans hcloses

/-- A line does not end inside brackets. -/
theorem absurd_break (h : w.token.kind ∈ breakKinds) : Enclosed (w :: mid) after := by
  intro opened o hopened hfold
  rw [map_cons, foldlM_cons, enclose_of_mem_breakKinds h hopened] at hfold
  cases hfold

end Enclosed

/-- Whether there are only parts of expressions in a category. -/
def Category.isInner : Category → Bool
  | .parameter | .parameters | .expression _ | .field | .functionBody | .block _ => true
  | .series item => item.isInner
  | _ => false

theorem isPlain_of_unaryOp? {k op} (h : Nested.unaryOp? k = some op) : isPlain k = true := by
  rcases Nested.unaryOp?_cases h with rfl | rfl <;> rfl

theorem isPlain_of_lookup {rung k op} (hrung : rung ∈ Nested.ladder) (h : rung.lookup k = some op) :
    isPlain k = true := by
  obtain ⟨before, after, rfl, -⟩ := lookup_eq_some_iff.mp h
  have hplain : ∀ rung ∈ Nested.ladder, ∀ found ∈ rung, isPlain found.1 = true := by decide
  exact hplain _ hrung (k, op) (by simp)

theorem Category.separator_of_isInner {item : Category} (h : item.isInner = true) :
    item.separator = .comma := by
  cases item with
  | statement => cases h
  | _ => rfl

/-- **The brackets of an expression are its own.** -/
theorem enclosed_of_derives {c before after tree} (h : Derives c before tree after) :
    c.isInner = true → Enclosed before after := by
  induction h with
  | none => exact fun _ => .refl _
  | further _ _ ihtrees ihtree => exact fun hc => (ihtrees hc).trans (ihtree hc)
  | @separator item _ _ _ _ _ ht ih =>
    intro hc
    have hcomma : item.separator = .comma := Category.separator_of_isInner hc
    exact (ih hc).trans (.word (by rw [ht, hcomma]; rfl))
  | parameter ht | name _ ht => exact fun _ => .word (by rw [ht]; rfl)
  | parameters hopener _ _ hcloser ih | group hopener _ hcloser ih | list hopener _ hcloser ih
  | record hopener _ _ hcloser ih => exact fun _ => .pair hopener (ih rfl) hcloser
  | shortBody hcolon _ ih => exact fun _ => .cons (by rw [hcolon]; rfl) (ih rfl)
  | longBody _ ih => exact fun _ => ih rfl
  | literal _ ht =>
    simp only [mem_cons, not_mem_nil, or_false] at ht
    rcases ht with ht | ht | ht | ht | ht <;> exact fun _ => .word (by rw [ht]; rfl)
  | field hkey hcolon _ ih =>
    exact fun _ => .cons (by rw [hkey]; rfl) (.cons (by rw [hcolon]; rfl) (ih rfl))
  | call _ hopener _ hcloser ihtarget ih | getIndex _ hopener _ hcloser ihtarget ih =>
    exact fun _ => (ihtarget rfl).trans (.pair hopener (ih rfl) hcloser)
  | getField _ hdot hname ih =>
    exact fun _ => (ih rfl).trans (.cons (by rw [hdot]; rfl) (.word (by rw [hname]; rfl)))
  | unary hop _ ih => exact fun _ => .cons (isPlain_of_unaryOp? hop) (ih rfl)
  | binary hrung hop _ _ ihleft ihright =>
    exact fun _ => (ihleft rfl).trans (.cons (isPlain_of_lookup hrung hop) (ihright rfl))
  | ternary _ hquestion _ hbang _ ihcondition ihconsequent ihalternative =>
    exact fun _ => (ihcondition rfl).trans (.cons (by rw [hquestion]; rfl)
      ((ihconsequent rfl).trans (.cons (by rw [hbang]; rfl) (ihalternative rfl))))
  | functionLiteral hkeyword _ _ ihnames ihbody =>
    exact fun _ => .cons (by rw [hkeyword]; rfl) ((ihnames rfl).trans (ihbody rfl))
  | block hnewline => exact fun _ => .absurd_break (by rw [hnewline]; decide)
  | _ => exact nofun

/-! ## Tokens -/

namespace Splits

variable {tokens : List Token} {words : List Word}

/-- Telling a leading word apart neither opens nor closes brackets. -/
theorem foldlM_enclose (h : Splits tokens words) : ∀ opened : List Bracket,
    (words.map (·.token)).foldlM enclose opened = tokens.foldlM enclose opened := by
  induction h with
  | nil => exact fun _ => rfl
  | plain _ _ _ _ ih =>
    intro opened
    rw [map_cons, foldlM_cons, foldlM_cons]
    exact bind_congr ih
  | @leading t first _ more rest words _ _ hfirst _ ih =>
    intro opened
    rw [map_cons, foldlM_cons, foldlM_cons]
    rcases Cursor.leadingWord_cases t with heq | ⟨hname, k, -, heq⟩ |
      ⟨hname, k, _, _, _, -, -, -, -, heq⟩ <;> rw [hfirst] at heq <;>
      cases heq
    · exact bind_congr ih
    · rw [enclose_of_isPlain (t := t) (by rw [hname]; rfl), enclose_of_isPlain rfl]
      exact ih opened
    · rw [enclose_of_isPlain (t := t) (by rw [hname]; rfl), enclose_of_isPlain rfl]
      refine (ih opened).trans ?_
      rw [singleton_append, foldlM_cons, enclose_of_isPlain rfl]

theorem notMem_breakKinds (h : Splits tokens words) :
    (∀ w ∈ words, w.token.kind ∉ breakKinds) → ∀ t ∈ tokens, t.kind ∉ breakKinds := by
  induction h with
  | nil => exact fun _ => nofun
  | plain _ _ _ _ ih =>
    intro hwords
    obtain ⟨hfirst, hlater⟩ := forall_mem_cons.mp hwords
    exact forall_mem_cons.mpr ⟨hfirst, ih hlater⟩
  | @leading t first _ more rest words _ _ hfirst _ ih =>
    intro hwords
    obtain ⟨hhead, hlater⟩ := forall_mem_cons.mp hwords
    refine forall_mem_cons.mpr ⟨?_, (forall_mem_append.mp (ih hlater)).2⟩
    by_cases hname : t.kind = .identifier
    · rw [hname]
      decide
    · rw [Cursor.leadingWord_of_kind_ne hname] at hfirst
      cases hfirst
      exact hhead

end Splits

/-- Soft line breaks neither open nor close brackets. -/
theorem foldlM_enclose_withoutSoft : ∀ {words opened o},
    (words.map (·.token)).foldlM enclose opened = some o →
      ((withoutSoft words).map (·.token)).foldlM enclose opened = some o
  | [], _, _, h => h
  | w :: words, opened, o, h => by
    rw [map_cons, foldlM_cons] at h
    obtain ⟨mid, hmid, hlater⟩ := Option.bind_eq_some_iff.mp h
    by_cases hsoft : w.token.kind = .softNewline
    · obtain ⟨rfl, -⟩ := eq_of_enclose_soft hsoft hmid
      rw [withoutSoft_cons_soft hsoft]
      exact foldlM_enclose_withoutSoft hlater
    · rw [withoutSoft_cons hsoft, map_cons, foldlM_cons, hmid]
      exact foldlM_enclose_withoutSoft hlater

/-- **What is read by itself from tokens inside brackets stays inside them**: no line ends in it, no
block begins, and behind it the same brackets are open. -/
theorem notMem_breakKinds_of_spans {s t W} (h : Parser.Spans s t W)
    (hW : ∀ before after, W before after → Enclosed before after) (hreports : t.reports = [])
    (hrest : t.cursor.rest = []) (hfinal : t.cursor.final.kind = .eof) {opened o}
    (hopened : opened ≠ []) (hfold : s.cursor.rest.foldlM enclose opened = some o) :
    (∀ x ∈ s.cursor.rest, x.kind ∉ breakKinds) ∧ o = opened := by
  have hend : Ahead t.cursor t.cursor.taken.reverse [] :=
    ⟨hfinal, hrest ▸ .nil, append_nil _⟩
  obtain ⟨before, hbefore, hspan⟩ := (h hreports).2 _ _ hend
  rw [← hbefore.splits.foldlM_enclose] at hfold
  have hhard := foldlM_enclose_withoutSoft hfold
  obtain ⟨used, hused, hflat, hkept⟩ := hW _ _ hspan opened o hopened hhard
  obtain rfl : withoutSoft before = used := hused.trans (append_nil _)
  rw [hkept] at hhard
  refine ⟨hbefore.splits.notMem_breakKinds fun w hw => ?_, (Option.some.inj hhard).symm⟩
  by_cases hsoft : w.token.kind = .softNewline
  · rw [hsoft]
    decide
  · exact hflat w (mem_filter.mpr ⟨hw, by simpa using hsoft⟩)

end Offside
