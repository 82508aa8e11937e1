import Mathlib.Data.List.DropRight
import Offside.Proofs.Pointing

/-!
# Proofs/LineTexts — the line that a diagnostic shows

There are two ways to the text of a line.  `Text.line?` takes it from between two offsets and cuts
off one carriage return; `Text.bareLine` takes it from among the lines and cuts off all of them.  On
every line of a text they agree exactly if it does not end in two carriage returns
(`line?_eq_bareLine_iff`).

A fault of the scan carries the second text, and every other diagnostic gets the first one as it is
kept.  `lineText_iff` is the result.
-/

namespace Offside

open List Text

namespace Text

variable {text line : List Char}

/-! ## Offsets -/

@[simp] theorem byteSize_append (before after : List Char) :
    byteSize (before ++ after) = byteSize before + byteSize after := by
  induction before with
  | nil => exact (Nat.zero_add _).symm
  | cons c before ih => rw [cons_append, byteSize, byteSize, ih, Nat.add_assoc]

/-- A text is split behind a part of it. -/
theorem splitAtByte?_append (before after : List Char) :
    splitAtByte? (byteSize before) (before ++ after) = some (before, after) := by
  induction before with
  | nil => rw [byteSize, splitAtByte?, nil_append]
  | cons c before ih =>
    obtain ⟨size, hsize⟩ := Nat.exists_eq_add_of_lt c.utf8Size_pos
    have hoffset : byteSize (c :: before) = size + byteSize before + 1 := by
      rw [byteSize]
      omega
    rw [hoffset, cons_append, splitAtByte?, if_pos (by omega),
      show size + byteSize before + 1 - c.utf8Size = byteSize before by omega, ih]
    rfl

theorem slice?_append (before line after : List Char) :
    slice? (before ++ (line ++ after)) (byteSize before) (byteSize before + byteSize line)
      = some line := by
  rw [slice?, splitAtByte?_append]
  simp [splitAtByte?_append]

theorem breaksFrom_of_notMem : ∀ {text} (offset : Nat), '\n' ∉ text → breaksFrom offset text = []
  | [], _, _ => rfl
  | c :: text, offset, h => by
    obtain ⟨hc, htext⟩ := not_or.mp (mt mem_cons.mpr h)
    rw [breaksFrom, if_neg (Ne.symm hc), breaksFrom_of_notMem _ htext]

/-- The next line begins behind the first line feed. -/
theorem breaksFrom_append (rest : List Char) : ∀ {line} (offset : Nat), '\n' ∉ line →
    breaksFrom offset (line ++ '\n' :: rest) = (offset + byteSize line + 1) ::
      breaksFrom (offset + byteSize line + 1) rest
  | [], _, _ => by rw [nil_append, breaksFrom, if_pos rfl, byteSize, Nat.add_zero]
  | c :: line, offset, h => by
    obtain ⟨hc, hline⟩ := not_or.mp (mt mem_cons.mpr h)
    rw [cons_append, breaksFrom, if_neg (Ne.symm hc), breaksFrom_append rest _ hline, byteSize,
      Nat.add_assoc offset]

@[simp] theorem length_breaksFrom : ∀ (text : List Char) (offset : Nat),
    (breaksFrom offset text).length = text.count '\n'
  | [], _ => rfl
  | c :: text, offset => by
    rw [breaksFrom]
    by_cases hc : c = '\n'
    · rw [if_pos hc, length_cons, length_breaksFrom, hc, count_cons_self]
    · rw [if_neg hc, length_breaksFrom, count_cons_of_ne hc]

theorem lines_of_notMem (h : '\n' ∉ text) : lines text = [text] := splitOn_of_notMem h

/-- **A line stands between the offsets where it and the next one begin.** -/
theorem exists_around :
    ∀ {n text} (offset : Nat), (lines text)[n]? = some line →
    ∃ before after, text = before ++ (line ++ after) ∧
      (offset :: breaksFrom offset text)[n]? = some (offset + byteSize before) ∧
      ((offset :: breaksFrom offset text)[n + 1]?.map (· - 1)).getD (offset + byteSize text)
        = offset + byteSize before + byteSize line := by
  intro n text offset h
  by_cases hbreak : '\n' ∈ text
  · obtain ⟨first, rest, rfl, hfirst⟩ := eq_append_cons_of_mem hbreak
    rw [lines_append, lines_of_notMem hfirst, singleton_append] at h
    rw [breaksFrom_append rest offset hfirst]
    cases n with
    | zero =>
      obtain rfl : first = line := by simpa using h
      exact ⟨[], '\n' :: rest, rfl, rfl, rfl⟩
    | succ n =>
      obtain ⟨before, after, rfl, hstart, hstop⟩ :=
        exists_around (offset + byteSize first + 1) (by simpa using h)
      have hbreak (part : List Char) :
          offset + byteSize (first ++ '\n' :: part) =
            offset + byteSize first + 1 + byteSize part := by
        rw [byteSize_append, byteSize, ← Nat.add_assoc, ← Nat.add_assoc]
        rfl
      refine ⟨first ++ '\n' :: before, after, by simp, ?_, ?_⟩
      · rw [hbreak]
        exact hstart
      · rw [hbreak, hbreak]
        exact hstop
  · rw [lines_of_notMem hbreak] at h
    rw [breaksFrom_of_notMem offset hbreak]
    cases n with
    | zero =>
      obtain rfl : text = line := by simpa using h
      exact ⟨[], [], by simp, rfl, rfl⟩
    | succ n => cases n <;> cases h

/-- **The text between the offsets of a line is the line.** -/
theorem line?_eq (text : List Char) (n : Nat) :
    line? text (n + 1) = (lines text)[n]?.map withoutReturn := by
  cases h : (lines text)[n]? with
  | some line =>
    obtain ⟨before, after, htext, hstart, hstop⟩ := exists_around 0 h
    rw [Nat.zero_add] at hstart hstop
    rw [Nat.zero_add] at hstop
    rw [line?, lineStarts, hstart]
    simp only [Option.bind_eq_bind, Option.bind_some]
    rw [hstop, htext, slice?_append]
    rfl
  | none =>
    have hnone : (lineStarts text)[n]? = none := by
      rw [getElem?_eq_none_iff] at h ⊢
      rwa [lineStarts, length_cons, length_breaksFrom, ← length_lines]
    rw [line?, hnone]
    rfl

/-! ## Carriage returns -/

/-- One carriage return less is all of them less, unless there are two. -/
theorem withoutReturn_eq_iff (line : List Char) :
    withoutReturn line = dropTrailing (· == '\r') line ↔ ¬ ['\r', '\r'] <:+ line := by
  obtain ⟨ends, rfl⟩ : ∃ ends : List Char, line = ends.reverse := ⟨line.reverse, by simp⟩
  have hsuffix : ['\r', '\r'] <:+ ends.reverse ↔ ['\r', '\r'] <+: ends := by
    rw [← reverse_suffix]
    rfl
  rw [hsuffix, withoutReturn, dropTrailing, getLast?_reverse, dropLast_reverse, reverse_reverse]
  rcases ends with _ | ⟨c, _ | ⟨d, ends⟩⟩
  · simp
  · by_cases hc : c = '\r' <;> simp [hc]
  · by_cases hc : c = '\r'
    · subst hc
      by_cases hd : d = '\r'
      · subst hd
        -- what is left of the line without all returns is shorter than it is without one
        have hshort := (dropWhile_suffix (· == '\r') (l := ends)).length_le
        simp only [head?_cons, beq_self_eq_true, if_true, tail_cons, reverse_inj,
          dropWhile_cons_of_pos]
        refine iff_of_false (fun h => ?_) (by simp)
        have hlength := congrArg length h
        rw [length_cons] at hlength
        omega
      · simp [hd, Ne.symm hd]
    · simp [hc, Ne.symm hc]

/-- **The two texts of a line agree exactly unless it ends in two carriage returns.** -/
theorem line?_eq_bareLine_iff {n} (h : (lines text)[n]? = some line) :
    line? text (n + 1) = some (bareLine text (n + 1)) ↔ ¬ ['\r', '\r'] <:+ line := by
  rw [line?_eq, h, Option.map_some, Option.some.injEq, bareLine, Nat.add_sub_cancel, h,
    Option.getD_some]
  exact withoutReturn_eq_iff line

end Text

namespace Session

variable {source : List Char}

/-- A diagnostic as its stage tells it: inside the source, and with the text of its line if it is
about a fault of the scan. -/
def Told (source : List Char) (d : Diagnostic) : Prop :=
  Within source d.position ∧
    (d.category = .lexical ∧ d.lineText = some (String.ofList (bareLine source d.position.line)) ∨
      d.category ≠ .lexical ∧ d.lineText = none)

theorem told_scanReports (source : List Char) : ∀ d ∈ scanReports source, Told source d := by
  intro d hd
  refine ⟨within_scanReports source d hd, .inl ?_⟩
  obtain ⟨fault, -, rfl⟩ := mem_map.mp hd
  exact ⟨rfl, rfl⟩

theorem told_readReports (h : (Token.scan source).faults = []) :
    ∀ d ∈ readReports source, Told source d := by
  intro d hd
  refine ⟨within_readReports h d hd, .inr ?_⟩
  obtain ⟨report, -, rfl⟩ := mem_map.mp hd
  exact ⟨Diagnostic.Category.noConfusion, rfl⟩

theorem told_diagnostics (h : (Token.scan source).faults = []) {c verdicts}
    (hcheck : Checker.start.check (read source).statements = some (c, verdicts)) :
    ∀ d ∈ Verdict.diagnostics verdicts, Told source d := by
  intro d hd
  refine ⟨within_diagnostics h hcheck d hd, .inr ?_⟩
  obtain ⟨v, -, hd⟩ := mem_filterMap.mp hd
  obtain ⟨refusal, -, rfl⟩ := Option.map_eq_some_iff.mp hd
  exact ⟨Diagnostic.Category.noConfusion, rfl⟩

/-- **What a source adds to a session** are the diagnostics of one stage, with the texts of their
lines where they have none. -/
theorem exists_told_of_compile {session session' : Session} {outcome : Except Failure Compilation}
    (h : session.compile source = some (session', outcome)) :
    ∃ ds : List Diagnostic,
      session'.diagnostics = session.diagnostics ++ ds.map (withLineText source) ∧
      ∀ d ∈ ds, Told source d := by
  have hreaches := reaches_compile session source
  rw [h] at hreaches
  cases hreaches with
  | scanned => exact ⟨_, rfl, told_scanReports source⟩
  | parsed _ hscan => exact ⟨_, rfl, told_readReports hscan⟩
  | checked _ hscan _ hcheck => exact ⟨_, rfl, told_diagnostics hscan hcheck⟩
  | compiled => exact ⟨[], (append_nil _).symm, forall_mem_nil _⟩

/-- A diagnostic shows the text of its line that is taken by offsets, unless it is about a fault of
the scan and the line ends in two carriage returns. -/
theorem Told.shows_iff {d} (h : Told source d) {whole}
    (hwhole : (lines source)[d.position.line - 1]? = some whole) (hline : 1 ≤ d.position.line) :
    (withLineText source d).lineText = (line? source d.position.line).map String.ofList ↔
      d.category ≠ .lexical ∨ ¬ ['\r', '\r'] <:+ whole := by
  have hagree := line?_eq_bareLine_iff hwhole
  rw [Nat.sub_add_cancel hline] at hagree
  obtain ⟨-, ⟨hcategory, htext⟩ | ⟨hcategory, htext⟩⟩ := h
  · have hkept : (withLineText source d).lineText = d.lineText := by
      rw [withLineText]
      split
      · rfl
      · next hnone =>
        rw [htext] at hnone
        cases hnone
    have hinjective : Function.Injective String.ofList := fun _ _ => String.ofList_injective
    rw [hkept, htext, ← hagree, ← Option.map_some, (Option.map_injective hinjective).eq_iff,
      eq_comm]
    simp [hcategory]
  · rw [withLineText, htext]
    exact iff_of_true rfl (.inl hcategory)

end Session

/-- **When the two texts of a line agree.**  On every line of a source there are both, and they
agree exactly if the line does not end in two carriage returns.  Every diagnostic that a source adds
to a session is on a line of the source and carries the text that is taken by offsets, exactly
unless it is about a fault of the scan and its line ends in two carriage returns. -/
theorem lineText_iff (source : List Char) : (∀ n, 1 ≤ n → n ≤ (lines source).length → ∃ whole,
      (lines source)[n - 1]? = some whole ∧ (line? source n).isSome ∧
        (line? source n = some (bareLine source n) ↔ ¬ ['\r', '\r'] <:+ whole)) ∧
    ∀ (session session' : Session) outcome, session.compile source = some (session', outcome) →
      ∃ added, session'.diagnostics = session.diagnostics ++ added ∧ ∀ d ∈ added, ∃ whole,
        1 ≤ d.position.line ∧ (lines source)[d.position.line - 1]? = some whole ∧
          (d.lineText = (line? source d.position.line).map String.ofList ↔
            d.category ≠ .lexical ∨ ¬ ['\r', '\r'] <:+ whole) := by
  constructor
  · intro n hfirst hlast
    obtain ⟨n, rfl⟩ := Nat.exists_eq_add_of_le' hfirst
    have hwhole := getElem?_eq_getElem hlast
    exact ⟨_, hwhole, by simp [line?_eq, hwhole], line?_eq_bareLine_iff hwhole⟩
  · intro session session' outcome h
    obtain ⟨ds, hds, htold⟩ := Session.exists_told_of_compile h
    refine ⟨_, hds, forall_mem_map.mpr fun d hd => ?_⟩
    obtain ⟨whole, hwhole, -⟩ := (htold d hd).1
    obtain ⟨hfirst, -, hwhole⟩ := wholeLine?_eq_some hwhole
    rw [Session.position_withLineText, Session.category_withLineText]
    exact ⟨whole, hfirst, hwhole, (htold d hd).shows_iff hwhole hfirst⟩

/-- A character that begins no token, on a line that ends in one carriage return. -/
def strayCharacter : String := "var é : 1\r\n@\r\nvar"

/-- The same on a line that ends in two. -/
def doubledReturn : String := "@\r\r\n"

/-- A session that wants a program run. -/
def runSession : Session := .start ⟨.run, Session.defaultRuntime⟩

theorem lineText_iff_strayCharacter :
    line? strayCharacter.toList 2 = some (bareLine strayCharacter.toList 2) ∧
      ∃ session outcome, runSession.compile strayCharacter.toList = some (session, outcome) ∧
        ∃ added, added ≠ [] ∧ session.diagnostics = runSession.diagnostics ++ added ∧
          ∀ d ∈ added, ∃ whole, 1 ≤ d.position.line ∧
            (lines strayCharacter.toList)[d.position.line - 1]? = some whole ∧
            (d.lineText = (line? strayCharacter.toList d.position.line).map String.ofList ↔
              d.category ≠ .lexical ∨ ¬ ['\r', '\r'] <:+ whole) := by
  obtain ⟨hlines, hkept⟩ := lineText_iff strayCharacter.toList
  obtain ⟨whole, hwhole, -, hagree⟩ := hlines 2 (by decide) (by decide)
  obtain rfl : whole = ['@', '\r'] := Option.some.inj (hwhole.symm.trans (by decide))
  have hany : (runSession.compile strayCharacter.toList).any (!·.1.diagnostics.isEmpty) := by
    decide +kernel
  obtain ⟨⟨session, outcome⟩, hcompile, hsome⟩ := (Option.any_eq_true _ _).mp hany
  obtain ⟨added, hadded, htexts⟩ := hkept _ _ _ hcompile
  refine ⟨hagree.mpr (by decide), session, outcome, hcompile, added, ?_, hadded, htexts⟩
  rintro rfl
  rw [hadded] at hsome
  cases hsome

/-- The two texts of a line differ, and the diagnostic shows the shorter one. -/
theorem doubledReturn_shown_bare : line? doubledReturn.toList 1 = some ['@', '\r'] ∧
      bareLine doubledReturn.toList 1 = ['@'] ∧
      (runSession.compile doubledReturn.toList).map (·.1.diagnostics.map fun d =>
        (d.position.line, d.lineText)) = some [(1, some "@")] := by
  refine ⟨by decide, by decide, by decide +kernel⟩

end Offside
