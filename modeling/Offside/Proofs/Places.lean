import Offside.Proofs.Division
import Offside.Proofs.Steps

/-!
# Proofs/Places — places inside a text

A place is inside a text if the text has a line of that number, with at least as many characters as
the column says (`Within`).  Everything that a scan records is at a place in the text that it has
left, or at the beginning of a line; so it is inside the text (`within_scan`), whatever faults there
are.

Where there are none, a token other than layout stands in the text at its place (`Shows`).  So does
what it is split or cut down to later: a leading keyword, the name behind that keyword, and a name
without its question mark.
-/

namespace Offside

open Position

/-! ## Lines and columns -/

variable {text : List Char}

namespace Text

/-- The `n`-th line, counted from one, with all of its characters. -/
def wholeLine? (text : List Char) : Nat → Option (List Char)
  | 0 => none
  | n + 1 => (lines text)[n]?

theorem wholeLine?_eq_some {line n} (h : wholeLine? text n = some line) :
    1 ≤ n ∧ n ≤ (lines text).length ∧ (lines text)[n - 1]? = some line := by
  cases n with
  | zero => cases h
  | succ n =>
    obtain ⟨hlt, -⟩ := List.getElem?_eq_some_iff.mp h
    exact ⟨Nat.succ_pos n, hlt, h⟩

theorem exists_lines_append {before} (h : '\n' ∉ before) (rest : List Char) :
    ∃ line later, lines rest = line :: later ∧
      lines (before ++ rest) = (before ++ line) :: later := by
  induction before with
  | nil =>
    obtain ⟨line, later, hlines⟩ := List.exists_cons_of_length_pos
      (show 0 < (lines rest).length by rw [length_lines]; exact Nat.succ_pos _)
    exact ⟨line, later, hlines, hlines⟩
  | cons c before ih =>
    obtain ⟨hc, hbefore⟩ := not_or.mp (mt List.mem_cons.mpr h)
    obtain ⟨line, later, hrest, hlines⟩ := ih hbefore
    obtain ⟨part, later', hsplit, hcons⟩ := splitOn_cons_of_ne (Ne.symm hc) (before ++ rest)
    obtain ⟨rfl, rfl⟩ := List.cons.inj (hsplit.symm.trans hlines)
    exact ⟨line, later', hrest, hcons⟩

/-- **The place behind `before` is on the line that goes on with what follows.** -/
theorem wholeLine?_after (before rest : List Char) : ∃ lead line later,
    wholeLine? (before ++ rest) (start.after before).line = some (lead ++ line) ∧
      lead.length = (start.after before).column ∧ lines rest = line :: later := by
  rcases exists_lastPart '\n' before with h | ⟨upper, last, rfl, hlast⟩
  · obtain ⟨line, later, hrest, hlines⟩ := exists_lines_append h rest
    refine ⟨before, line, later, ?_, ?_, hrest⟩
    · rw [after_eq_right _ _ h]
      change (lines (before ++ rest))[0]? = _
      rw [hlines]
      rfl
    · rw [after_eq_right _ _ h]
      exact (Nat.zero_add _).symm
  · obtain ⟨line, later, hrest, hlines⟩ := exists_lines_append hlast rest
    have hplace : start.after (upper ++ '\n' :: last)
        = ⟨(lines upper).length + 1, last.length⟩ := by
      have hnext : ∀ p : Position, p.next '\n' = ⟨p.line + 1, 0⟩ := fun _ => rfl
      rw [after_append, after_cons, hnext, after_eq_right _ _ hlast,
        line_after, length_lines, right, Nat.zero_add]
      change (⟨1 + _ + 1, _⟩ : Position) = _
      rw [Nat.add_comm 1]
    refine ⟨last, line, later, ?_, ?_, hrest⟩
    · rw [hplace, List.append_assoc, List.cons_append]
      change (lines (upper ++ '\n' :: (last ++ rest)))[(lines upper).length]? = _
      rw [lines_append, hlines, List.getElem?_append_right (Nat.le_refl _), Nat.sub_self]
      rfl
    · rw [hplace]

end Text

open Text (wholeLine?)

/-- **A place inside a text.** -/
def Within (text : List Char) (p : Position) : Prop :=
  ∃ line, wholeLine? text p.line = some line ∧ p.column ≤ line.length

theorem within_after (before rest : List Char) : Within (before ++ rest) (start.after before) := by
  obtain ⟨lead, line, -, hline, hlead, -⟩ := Text.wholeLine?_after before rest
  refine ⟨lead ++ line, hline, ?_⟩
  rw [← hlead, List.length_append]
  exact Nat.le_add_right _ _

theorem Within.lineStart {p} (h : Within text p) : Within text ⟨p.line, 0⟩ := by
  obtain ⟨line, hline, -⟩ := h
  exact ⟨line, hline, Nat.zero_le _⟩

namespace Token

variable {t : Token} {word : List Char}

/-! ## The places that a scan records -/

/-- **Everything that a scan of a text records is inside the text.** -/
theorem within_scan (text : List Char) : (∀ t ∈ (scan text).tokens, Within text t.position) ∧
      ∀ fault ∈ (scan text).faults, Within text fault.1 := by
  have hadmits : Scan.Admits (fun t => Within text t.position) (Within text) (Within text) :=
    ⟨fun _ _ _ _ h => h, fun _ _ _ _ _ _ _ h => h, fun _ h => h⟩
  refine Scan.Records.scan hadmits ?_
  rintro taken ⟨rest, rfl⟩
  have hplace := within_after taken rest
  exact ⟨hplace, hplace.lineStart⟩

/-! ## Tokens that stand in a text -/

/-- **A token that stands in a text where it says**: its line goes on at its column with a text that
it is read from. -/
def Shows (text : List Char) (t : Token) : Prop :=
  ∃ line word, wholeLine? text t.position.line = some line ∧
    word <+: line.drop t.position.column ∧ t.ReadFrom word

/-- A token inside a text, which stands there if it is not layout. -/
structure Stands (text : List Char) (t : Token) : Prop where
  within : Within text t.position
  shows : t.kind ∉ Scan.layoutKinds → Shows text t

theorem newline_mem_reading {kind} (h : '\n' ∈ word) : '\n' ∈ reading kind word := by
  unfold reading
  split
  · exact List.mem_map.mpr ⟨'\n', h, by decide⟩
  · exact h

theorem Divides.newline_notMem {p tokens} (h : Divides p text tokens) :
    ∀ t ∈ tokens, '\n' ∉ t.lexeme.toList := by
  induction h with
  | done => exact List.forall_mem_nil _
  | blank _ _ ih | comment _ _ _ ih => exact ih
  | @token t word _ _ _ hline hword _ ih =>
    refine List.forall_mem_cons.mpr ⟨fun hmem => ?_, ih⟩
    rw [hword, reading] at hmem
    split at hmem
    · obtain ⟨c, hc, hplain⟩ := List.mem_map.mp hmem
      unfold plainJoiner at hplain
      split at hplain
      · exact absurd hplain (by decide)
      · exact hline (hplain ▸ hc)
    · exact hline hmem

theorem shows_of_split {before after} (htext : text = before ++ word ++ after)
    (hplace : start.after before = t.position) (hline : '\n' ∉ word) (hword : t.ReadFrom word) :
    Shows text t := by
  obtain ⟨lead, line, later, hwhole, hlead, hlines⟩ :=
    Text.wholeLine?_after before (word ++ after)
  obtain ⟨tail, later', -, hlines'⟩ := Text.exists_lines_append hline after
  cases (hlines.symm.trans hlines')
  rw [← List.append_assoc, ← htext, hplace] at hwhole
  rw [hplace] at hlead
  refine ⟨_, word, hwhole, ?_, hword⟩
  rw [← hlead, List.drop_left]
  exact List.prefix_append _ _

/-- **Without faults every token is inside the text, and stands there unless it is layout.** -/
theorem stands_of_mem_scan (h : (scan text).faults = []) :
    ∀ t ∈ (scan text).tokens, Stands text t := by
  intro t ht
  refine ⟨(within_scan text).1 t ht, fun hkind => ?_⟩
  have hmem : t ∈ textual (scan text).tokens :=
    List.mem_filterMap.mpr ⟨t, ht, if_neg hkind⟩
  have hdivides := divides_scan h
  obtain ⟨before, word, after, htext, hplace, -, hword⟩ := hdivides.exists_word t hmem
  refine shows_of_split htext hplace (fun hnewline => ?_) hword
  refine hdivides.newline_notMem t hmem ?_
  rw [hword]
  exact newline_mem_reading hnewline

/-- A word without joiners is read as it is. -/
theorem eq_of_map_plainJoiner {plain} (hword : word.map plainJoiner = plain)
    (h : ∀ c ∈ plain, isJoiner c = false) : word = plain := by
  subst hword
  have hid : ∀ c ∈ word, plainJoiner c = c := by
    intro c hc
    refine if_neg fun hbreak => ?_
    have hjoiner := h _ (List.mem_map_of_mem hc)
    rw [eq_of_beq hbreak] at hjoiner
    exact absurd hjoiner (by decide)
  exact ((List.map_congr_left hid).trans (List.map_id' _)).symm

theorem isJoiner_keyword (k : Keyword) : ∀ c ∈ k.word.toList, isJoiner c = false := by
  cases k <;> simp [Keyword.word, isJoiner]

/-- What stands at a column stands there without some of its end. -/
theorem Shows.ofStart {line} (hline : wholeLine? text t.position.line = some line)
    (h : word <+: line.drop t.position.column) {part} (hpart : part <+: word) {kind lexeme}
    (hread : lexeme.toList = reading kind part) (literal : Option Literal) :
    Shows text ⟨kind, lexeme, literal, t.position⟩ :=
  ⟨line, part, hline, hpart.trans h, hread⟩

/-- **A name without its last character stands where the name does.** -/
theorem Stands.dropLast (h : Stands text t) (hkind : t.kind = .identifier) :
    Stands text { t with lexeme := String.ofList t.lexeme.toList.dropLast } := by
  refine ⟨h.within, fun hlayout => ?_⟩
  obtain ⟨line, word, hline, hword, hread⟩ := h.shows hlayout
  refine .ofStart hline hword (List.dropLast_prefix word) ?_ _
  rw [String.toList_ofList, hread, hkind, reading, reading, if_pos rfl, if_pos rfl,
    List.map_dropLast]

/-- **The words that a leading name is split into stand where they say.** -/
theorem Stands.leadingWord (h : Stands text t) : ∀ u ∈ Cursor.leadingWord t, Stands text u := by
  rcases Cursor.leadingWord_cases t with heq | ⟨hkind, k, hk, heq⟩ |
    ⟨hkind, k, first, joiner, later, hlexeme, -, hfirst, hk, heq⟩
  · rw [heq]
    exact List.forall_mem_singleton.mpr h
  · rw [heq]
    refine List.forall_mem_singleton.mpr ⟨h.within, fun _ => ?_⟩
    obtain ⟨line, word, hline, hword, hread⟩ := h.shows (by rw [hkind]; decide)
    rw [ReadFrom, hkind, reading, if_pos rfl] at hread
    refine .ofStart hline hword (List.prefix_refl _) ?_ _
    rw [reading_of_ne (by simp)]
    refine (eq_of_map_plainJoiner hread.symm ?_).symm
    rw [← Keyword.word_of_ofWord? hk]
    exact isJoiner_keyword k
  · rw [heq]
    obtain ⟨line, word, hline, hword, hread⟩ := h.shows (by rw [hkind]; decide)
    rw [ReadFrom, hkind, reading, if_pos rfl, hlexeme] at hread
    obtain ⟨first', rest, rfl, hfirst', hrest⟩ := List.map_eq_append_iff.mp hread.symm
    obtain ⟨joiner', later', rfl, -, hlater'⟩ := List.map_eq_cons_iff.mp hrest
    obtain rfl := eq_of_map_plainJoiner hfirst' hfirst
    obtain ⟨tail, htail⟩ := hword
    have hbehind : line.drop (t.position.column + (first'.length + 1)) = later' ++ tail := by
      rw [← List.drop_drop, ← htail, List.append_assoc, List.cons_append, ← List.drop_drop,
        List.drop_left]
      rfl
    have hlength : t.position.column + (first'.length + 1) ≤ line.length := by
      obtain ⟨line', hline', hcolumn⟩ := h.within
      cases (hline'.symm.trans hline)
      have := congrArg List.length htail
      simp only [List.length_append, List.length_cons, List.length_drop] at this
      omega
    refine List.forall_mem_cons.mpr ⟨⟨h.within, fun _ => ?_⟩, List.forall_mem_singleton.mpr
      ⟨⟨line, hline, hlength⟩, fun _ => ⟨line, later', hline, ?_, ?_⟩⟩⟩
    · refine .ofStart hline ⟨tail, htail⟩ (List.prefix_append _ _) ?_ _
      rw [reading_of_ne (by simp), String.toList_ofList]
    · rw [right, hbehind]
      exact List.prefix_append _ _
    · rw [ReadFrom, reading, if_pos rfl, String.toList_ofList, hlater']

end Token

end Offside
