/-!
# Text/Lines — the lines of a text

A line feed ends a line, so a text has one line more than it has line feeds.
-/

namespace Offside.Text

/-- The parts of a text between the occurrences of a character. -/
def splitOn (separator : Char) (text : List Char) : List (List Char) :=
  text.foldr (fun c parts =>
    if c == separator then [] :: parts
    else match parts with
      | [] => [[c]]
      | part :: later => (c :: part) :: later) [[]]

/-- The lines of a text, without their line feeds. -/
def lines (text : List Char) : List (List Char) := splitOn '\n' text

@[simp] theorem splitOn_cons_self (separator : Char) (text : List Char) :
    splitOn separator (separator :: text) = [] :: splitOn separator text := by
  simp [splitOn]

theorem splitOn_cons_of_ne {separator c : Char} (hc : c ≠ separator) (text : List Char) :
    ∃ part later, splitOn separator text = part :: later ∧
      splitOn separator (c :: text) = (c :: part) :: later := by
  have hparts : splitOn separator text ≠ [] := by
    cases text with
    | nil => exact List.cons_ne_nil _ _
    | cons d text =>
      unfold splitOn
      rw [List.foldr_cons]
      split
      · exact List.cons_ne_nil _ _
      · split
        · exact List.cons_ne_nil _ _
        · exact List.cons_ne_nil _ _
  obtain ⟨part, later, hsplit⟩ := List.exists_cons_of_ne_nil hparts
  refine ⟨part, later, hsplit, ?_⟩
  unfold splitOn at hsplit ⊢
  rw [List.foldr_cons, hsplit, if_neg (by simpa using hc)]

@[simp] theorem splitOn_append (separator : Char) : ∀ before after : List Char,
    splitOn separator (before ++ separator :: after)
      = splitOn separator before ++ splitOn separator after
  | [], after => by
      rw [List.nil_append, splitOn_cons_self]
      rfl
  | c :: before, after => by
      have ih := splitOn_append separator before after
      rw [List.cons_append]
      by_cases hc : c = separator
      · subst hc
        simp [ih]
      · obtain ⟨part, later, hbefore, hcons⟩ := splitOn_cons_of_ne hc before
        obtain ⟨part', later', hboth, hcons'⟩ :=
          splitOn_cons_of_ne hc (before ++ separator :: after)
        rw [hbefore, hboth, List.cons_append] at ih
        obtain ⟨rfl, rfl⟩ := List.cons.inj ih
        rw [hcons, hcons', List.cons_append]

theorem splitOn_of_notMem {separator : Char} {text : List Char} (h : separator ∉ text) :
    splitOn separator text = [text] := by
  induction text with
  | nil => rfl
  | cons c text ih =>
    obtain ⟨hc, htext⟩ := not_or.mp (mt List.mem_cons.mpr h)
    obtain ⟨part, later, hsplit, hcons⟩ := splitOn_cons_of_ne (Ne.symm hc) text
    cases (ih htext).symm.trans hsplit
    exact hcons

/-- A text without a character in it, or with a last one. -/
theorem exists_lastPart (separator : Char) (text : List Char) :
    separator ∉ text ∨ ∃ upper last, text = upper ++ separator :: last ∧ separator ∉ last := by
  induction text with
  | nil => exact .inl List.not_mem_nil
  | cons c text ih =>
    rcases ih with h | ⟨upper, last, rfl, hlast⟩
    · by_cases hc : c = separator
      · exact .inr ⟨[], text, by rw [hc]; rfl, h⟩
      · exact .inl (fun hmem => (List.mem_cons.mp hmem).elim (fun he => hc he.symm) h)
    · exact .inr ⟨c :: upper, last, rfl, hlast⟩

@[simp] theorem lines_append (before after : List Char) :
    lines (before ++ '\n' :: after) = lines before ++ lines after :=
  splitOn_append '\n' before after

@[simp] theorem length_lines : ∀ text : List Char, (lines text).length = text.count '\n' + 1
  | [] => rfl
  | c :: text => by
      have ih := length_lines text
      unfold lines at ih ⊢
      by_cases hc : c = '\n'
      · subst hc
        simp [ih, List.count_cons_self]
      · obtain ⟨part, later, hsplit, hcons⟩ := splitOn_cons_of_ne hc text
        rw [hsplit, List.length_cons] at ih
        rw [hcons, List.length_cons, ih, List.count_cons_of_ne hc]

/-- The text without one carriage return at its end. -/
def withoutReturn (line : List Char) : List Char :=
  if line.getLast? == some '\r' then line.dropLast else line

/-- The text without the characters at its end that `p` holds for. -/
def dropTrailing (p : Char → Bool) (text : List Char) : List Char :=
  (text.reverse.dropWhile p).reverse

/-! ## Offsets

Offsets into a text count the bytes before them. -/

/-- The number of bytes that a text takes. -/
def byteSize : List Char → Nat
  | [] => 0
  | c :: later => c.utf8Size + byteSize later

/-- The offsets behind the line feeds of a text that begins at `offset`. -/
def breaksFrom (offset : Nat) : List Char → List Nat
  | [] => []
  | c :: later =>
    if c = '\n' then (offset + 1) :: breaksFrom (offset + 1) later
    else breaksFrom (offset + c.utf8Size) later

/-- Where the lines of a text begin. -/
def lineStarts (text : List Char) : List Nat := 0 :: breaksFrom 0 text

/-- The first so many bytes of a text and what is behind them. `none` where they end inside a
character or behind the text. -/
def splitAtByte? : Nat → List Char → Option (List Char × List Char)
  | 0, text => some ([], text)
  | _ + 1, [] => none
  | offset + 1, c :: later =>
    if c.utf8Size ≤ offset + 1 then
      (splitAtByte? (offset + 1 - c.utf8Size) later).map fun (before, after) => (c :: before, after)
    else none

/-- The text between two offsets. -/
def slice? (text : List Char) (start stop : Nat) : Option (List Char) := do
  let (_, behind) ← splitAtByte? start text
  let (inside, _) ← if start ≤ stop then splitAtByte? (stop - start) behind else none
  return inside

/-- The `n`-th line, counted from one, without the carriage return of its line break: the text from
where it begins up to the line feed before the next line. -/
def line? (text : List Char) : Nat → Option (List Char)
  | 0 => none
  | n + 1 => do
    let start ← (lineStarts text)[n]?
    let stop := ((lineStarts text)[n + 1]?.map (· - 1)).getD (byteSize text)
    return withoutReturn (← slice? text start stop)

/-- The `n`-th line, counted from one, without any carriage return at its end; empty where there is
no such line. -/
def bareLine (text : List Char) (n : Nat) : List Char :=
  dropTrailing (· == '\r') ((lines text)[n - 1]?.getD [])

/-- The first line of a text that is not empty, without its line break. -/
def firstLine? (text : List Char) : Option (List Char) :=
  match text, lines text with
  | [], _ => none
  | _, [only] => some only
  | _, first :: _ => some (withoutReturn first)
  | _, [] => none

end Offside.Text
